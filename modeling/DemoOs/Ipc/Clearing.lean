import DemoOs.Ipc.Accounting

/-!
# Clearing a semaphore

`Semaphore::clear` sets the value anew, and leaves the waiter list alone. What the waiters have
taken off the old value is given back to the new one by the next call to `unlock`.

With the value cleared to `v`, and the permits counted from then on, no more permits are acquired
than `v` plus the calls to `unlock`, whatever the threads do, exactly if nobody was waiting
(`honest_iff`). `TtyBase::flushReadBuffer` clears the read semaphore to `0`, as readers wait for it.
-/

namespace DemoOs

namespace Kernel

/-- `Semaphore::clear`. -/
def clearSem (k : Kernel) (σ : ℕ) (val : ℤ) : Kernel :=
  { k with val := Function.update k.val σ val }

end Kernel

namespace Ledger

/-- Only threads that run take steps. -/
def ByRunning (s : Ledger) : SemOp → Prop
  | .switch _ _ => True
  | _ => s.kernel.Runs

variable {s s' : Ledger} {k : Kernel} {R : Hdr → Cycle Node} {σ v : ℕ}

/-! ## Without waiters -/

/-- The value is what is left of the permits, the waiters having taken off theirs; it may overflow.
    No more permits are acquired than there were. -/
structure Honest (σ v : ℕ) (s : Ledger) : Prop where
  shape : ∃ R, s.kernel.Shape R
  val_eq : s.kernel.val σ = sint (v + s.unlocks - s.acquired - (s.kernel.waiters σ).ncard)
  acquired_le : s.acquired ≤ v + s.unlocks

/-- Only the lists and the value of the semaphore matter. -/
theorem Honest.congr (h : Honest σ v s) (hs : ∃ R, k.Shape R) (hval : k.val σ = s.kernel.val σ)
    (hw : k.waiters σ = s.kernel.waiters σ) : Honest σ v { s with kernel := k } :=
  ⟨hs, by rw [hval, hw]; exact h.val_eq, h.acquired_le⟩

theorem sint_sint_sub_one (m : ℤ) : sint (sint m - 1) = sint (m - 1) := Kernel.sint_add_sint m (-1)

/-- Where the permits are all acquired, the value is not positive, nor is it without overflow when
    one more is taken. -/
theorem Honest.acquired_lt (h : Honest σ v s)
    (hpos : 0 < s.kernel.val σ ∨ ¬s.kernel.Blocks σ) : s.acquired < v + s.unlocks := by
  have hle := h.acquired_le
  have hval := h.val_eq
  have hcard := s.kernel.ncard_waiters_le σ
  rw [Kernel.Blocks, hval, sint_sint_sub_one] at hpos
  by_contra hge
  rw [sint_eq (by omega) (by omega), sint_eq (by omega) (by omega)] at hpos
  omega

/-- A permit is taken, of this semaphore or of another one. -/
theorem Honest.take {τ : ℕ} (h : Honest σ v s)
    (hpos : τ = σ → 0 < s.kernel.val σ ∨ ¬s.kernel.Blocks σ) :
    Honest σ v { s with
      kernel := s.kernel.decVal τ
      acquired := if τ = σ then s.acquired + 1 else s.acquired } := by
  obtain ⟨R, hs⟩ := h.shape
  have hshape : ∃ R, (s.kernel.decVal τ).Shape R := ⟨R, hs.congr rfl rfl fun _ => rfl⟩
  by_cases hτ : τ = σ
  · subst hτ
    have hlt := h.acquired_lt (hpos rfl)
    rw [if_pos rfl]
    refine ⟨hshape, ?_, hlt⟩
    rw [Kernel.decVal_val, h.val_eq, sint_sint_sub_one]
    change _ = sint (v + s.unlocks - ((s.acquired + 1 : ℕ) : ℤ) - ((s.kernel.waiters τ).ncard : ℤ))
    congr 1
    omega
  · rw [if_neg hτ]
    exact h.congr hshape (Function.update_of_ne (Ne.symm hτ) ..) rfl

theorem Honest.step {op : SemOp} (h : Honest σ v s) (hok : s.ByRunning op)
    (hstep : s.step σ op = some s') : Honest σ v s' := by
  obtain ⟨R, hs⟩ := h.shape
  cases op with
  | switch t states =>
    rw [← Option.some.inj hstep]
    exact h.congr ⟨R, hs.congr rfl rfl fun _ => rfl⟩ rfl rfl
  | lock τ =>
    obtain ⟨x, hx, hs'⟩ := Option.bind_eq_some_iff.1 hstep
    obtain rfl := Option.some.inj hs'
    by_cases hblocks : s.kernel.Blocks τ
    · -- The caller becomes a waiter, and takes one off the value.
      obtain ⟨hx₂, hshape, hval, c, hc, hw, hother⟩ := hs.lockSection_blocks hok hblocks hx
      have hval : ∀ σ, x.1.val σ = (s.kernel.decVal τ).val σ := fun σ => congrFun hval σ
      rw [hx₂, if_neg (by simp)]
      by_cases hτ : τ = σ
      · subst hτ
        refine ⟨hshape, ?_, h.acquired_le⟩
        simp only [hw, Set.ncard_insert_of_notMem hc, hval, Kernel.decVal_val]
        rw [h.val_eq, sint_sint_sub_one]
        congr 1
        omega
      · exact h.congr hshape ((hval σ).trans (Function.update_of_ne (Ne.symm hτ) ..))
          (hother σ (Ne.symm hτ))
    · rw [Kernel.lockSection_of_nonneg (not_lt.1 hblocks)] at hx
      obtain rfl := Option.some.inj hx
      simpa using h.take fun hτ => .inr (hτ ▸ hblocks)
  | trylock τ =>
    -- A trylock takes a permit only if there is one.
    by_cases hpos : 0 < s.kernel.val τ
    · rw [Ledger.step, Kernel.trylock_of_pos hpos] at hstep
      obtain rfl := Option.some.inj hstep
      simpa using h.take fun hτ => .inl (hτ ▸ hpos)
    · rw [Ledger.step, Kernel.trylock_of_not_pos hpos] at hstep
      obtain rfl := Option.some.inj hstep
      rw [if_neg (by simp)]
      exact h
  | unlock τ =>
    obtain ⟨k, hk, hs'⟩ := Option.bind_eq_some_iff.1 hstep
    obtain rfl := Option.some.inj hs'
    -- An unlock wakes all the waiters, and their number is added with its permit.
    obtain ⟨k', hk', hshape, hempty, -, hother, hval⟩ := hs.unlock_sint (σ := τ)
    obtain rfl : k' = k := Option.some.inj (hk'.symm.trans hk)
    by_cases hτ : τ = σ
    · subst hτ
      have hle := h.acquired_le
      simp only [if_true]
      refine ⟨hshape, ?_, by simp only; omega⟩
      simp only [hempty, Set.ncard_empty, hval]
      rw [h.val_eq, add_assoc, Kernel.sint_add_sint]
      congr 1
      omega
    · simp only [hτ, if_false]
      exact h.congr hshape (hother σ (Ne.symm hτ)).1 (hother σ (Ne.symm hτ)).2

/-! ## With waiters -/

/-- As many permits are acquired, one after the other, as the value says. -/
theorem exists_run_trylock (hs : s.kernel.Shape R) (hruns : s.kernel.Runs)
    (hmax : s.kernel.val σ < 2 ^ 31) {n : ℕ} (hn : n ≤ s.kernel.val σ) :
    ∃ k, Run (step σ) ByRunning s ⟨k, s.unlocks, s.acquired + n⟩ ∧ k.Shape R ∧ k.Runs ∧
      k.val σ = s.kernel.val σ - n ∧ k.waiters σ = s.kernel.waiters σ := by
  induction n with
  | zero => exact ⟨s.kernel, .refl, hs, hruns, by simp, rfl⟩
  | succ n ih =>
    obtain ⟨k, hrun, hs', hruns', hval, hw⟩ := ih (by omega)
    have hpos : 0 < k.val σ := by omega
    have hstep : step σ ⟨k, s.unlocks, s.acquired + n⟩ (.trylock σ) =
        some ⟨k.decVal σ, s.unlocks, s.acquired + n + 1⟩ := by
      simp [step, Kernel.trylock_of_pos hpos]
    refine ⟨k.decVal σ, hrun.tail (i := .trylock σ) hruns' hstep, hs'.congr rfl rfl fun _ => rfl,
      hruns'.congr rfl rfl, ?_, hw⟩
    rw [Kernel.decVal_val, sint_eq (by omega) (by omega)]
    omega

/-- With waiters, `v` permits are acquired, a call to `unlock` gives back what the waiters have
    taken off the value before it was cleared, and two more permits are there. -/
theorem exists_run_of_waiter {c : Tid} (hs : k.Shape R) (hruns : k.Runs) (hv : v < 2 ^ 31)
    (hc : k.OnList (.waiters σ) c) :
    ∃ s, Run (step σ) ByRunning ⟨k.clearSem σ v, 0, 0⟩ s ∧ v + s.unlocks < s.acquired := by
  have hval₀ : (k.clearSem σ v).val σ = v := Function.update_self ..
  have hs₀ : (k.clearSem σ v).Shape R := hs.congr rfl rfl fun _ => rfl
  obtain ⟨k₁, hrun₁, hs₁, hruns₁, hval₁, hw₁⟩ := exists_run_trylock (s := ⟨k.clearSem σ v, 0, 0⟩)
    hs₀ (hruns.congr rfl rfl) (by simp only [hval₀]; omega) (n := v) hval₀.ge
  obtain ⟨k₂, hk₂, ⟨R₂, hs₂⟩, -, hruns₂, -, hval₂⟩ := hs₁.unlock_sint (σ := σ)
  have hcard : 0 < (k₁.waiters σ).ncard := by
    rw [Set.ncard_pos, hw₁]
    exact ⟨c, hc⟩
  have hcard_le := k₁.ncard_waiters_le σ
  simp only [hval₀, sub_self] at hval₁
  rw [hval₁, sint_eq (by omega) (by omega)] at hval₂
  have hunlock : step σ ⟨k₁, 0, 0 + v⟩ (.unlock σ) = some ⟨k₂, 1, 0 + v⟩ := by
    simp [step, hk₂]
  obtain ⟨k₃, hrun₃, -⟩ := exists_run_trylock (s := ⟨k₂, 1, 0 + v⟩) (σ := σ) hs₂ (hruns₂ hruns₁)
    (by simp only; omega) (n := 2) (by simp only; omega)
  exact ⟨_, (hrun₁.tail (i := SemOp.unlock σ) hruns₁ hunlock).trans hrun₃, by simp only; omega⟩

/-! ## The count after a clear -/

/-- **`clear` keeps the count honest exactly if nobody is waiting**: in a kernel whose lists are
    well formed, the caller of `clear` running, no run from there acquires more permits than `v`
    plus the calls to `unlock` if and only if the semaphore has no waiters. -/
theorem honest_iff (hs : k.Shape R) (hruns : k.Runs) (hv : v < 2 ^ 31) :
    (∀ s, Run (step σ) ByRunning ⟨k.clearSem σ v, 0, 0⟩ s → s.acquired ≤ v + s.unlocks) ↔
      ∀ t, ¬k.OnList (.waiters σ) t := by
  constructor
  · intro h t ht
    obtain ⟨s, hrun, hlt⟩ := exists_run_of_waiter hs hruns hv ht
    exact hlt.not_ge (h s hrun)
  · intro hw s hrun
    have hempty : (k.clearSem σ v).waiters σ = ∅ := Set.eq_empty_of_forall_notMem hw
    have hval : (k.clearSem σ v).val σ = v := Function.update_self ..
    have h₀ : Honest σ v ⟨k.clearSem σ v, 0, 0⟩ := by
      refine ⟨⟨R, hs.congr rfl rfl fun _ => rfl⟩, ?_, Nat.zero_le _⟩
      simp only [hempty, hval, Set.ncard_empty, Nat.cast_zero, add_zero, sub_zero]
      rw [sint_eq (by omega) (by omega)]
    exact (hrun.invariant (I := Honest σ v) (fun h hok hstep => h.step hok hstep) h₀).acquired_le

/-- After the start of the kernel nobody is waiting. -/
theorem honest_after_boot :
    ∃ k, Kernel.boot (fun _ => 0) Kernel.noThread (fun _ => 7) = some k ∧
      ∀ s, Run (step 0) ByRunning ⟨k.clearSem 0 0, 0, 0⟩ s → s.acquired ≤ 0 + s.unlocks := by
  have hboot : (Kernel.boot (fun _ => 0) Kernel.noThread fun _ => 7).isSome := by
    decide +kernel
  obtain ⟨k, hk⟩ := Option.isSome_iff_exists.1 hboot
  obtain ⟨R, c, hb⟩ := Kernel.booted_of_boot hk
  exact ⟨k, hk, (honest_iff (v := 0) hb.shape hb.runs (by decide)).2
    fun t ht => hb.no_waiters 0 t (hb.shape.onList_iff.1 ht)⟩

/-- One idle thread waits, and the other one clears the semaphore to `0`: after one call to
    `unlock`, two calls to `trylock` succeed. -/
theorem not_honest_with_waiter :
    ∃ k₀ k₁ k s, Kernel.boot (fun _ => 0) Kernel.noThread (fun _ => 0) = some k₀ ∧
      k₀.lockSection 0 = some (k₁, true) ∧ k = k₁.switch 0 (fun _ => .ready) ∧ k.Runs ∧
      Run (step 0) ByRunning ⟨k.clearSem 0 0, 0, 0⟩ s ∧ ¬s.acquired ≤ 0 + s.unlocks := by
  have hrun : ((Kernel.boot (fun _ => 0) Kernel.noThread fun _ => 0).bind fun k₀ =>
      (k₀.lockSection 0).map fun x => decide
        (x.2 = true ∧ x.1.links.next (.hdr (.ready 0)) = some (.thread 0) ∧
          x.1.links.next (.hdr (.waiters 0)) = some (.thread 1))) = some true := by
    decide +kernel
  obtain ⟨k₀, hboot, hrun⟩ := Option.bind_eq_some_iff.1 hrun
  obtain ⟨⟨k₁, b⟩, hlock, hfields⟩ := Option.map_eq_some_iff.1 hrun
  obtain ⟨rfl, hready, hwaits⟩ := of_decide_eq_true hfields
  obtain ⟨R, c, hb⟩ := Kernel.booted_of_boot hboot
  have hblocks : k₀.Blocks 0 := by
    by_contra hno
    rw [Kernel.lockSection_of_nonneg (not_lt.1 hno)] at hlock
    cases (Prod.mk.inj (Option.some.inj hlock)).2
  obtain ⟨-, ⟨R₁, hs₁⟩, -⟩ := hb.shape.lockSection_blocks hb.runs hblocks hlock
  have hs : (k₁.switch 0 fun _ => .ready).Shape R₁ := hs₁.congr rfl rfl fun _ => rfl
  have hmem : .thread 0 ∈ R₁ (.ready 0) := hs₁.onList_iff.1 (.single hready)
  have hruns : (k₁.switch 0 fun _ => .ready).Runs :=
    ⟨0, rfl, hs.onlyReady_iff.2 fun j hj => ⟨0, hs.rings.disjoint hj hmem⟩⟩
  obtain ⟨s, hrun, hlt⟩ := exists_run_of_waiter (v := 0) (σ := 0) (c := 1) hs hruns (by decide)
    (.single hwaits)
  exact ⟨k₀, k₁, _, s, hboot, hlock, rfl, hruns, hrun, hlt.not_ge⟩

end Ledger

end DemoOs
