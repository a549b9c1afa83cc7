import DemoOs.Ipc.Semaphore
import DemoOs.Task.Ticks

/-!
# The waiter lists

What the sections of `semaphore.cpp` under the spinlock do to the lists of a well-formed kernel:

* `Shape.lockSection`: a caller that finds no permit goes from its ready ring to the waiter list;
* `unlock_rule`: what `unlock` preserves, if it is preserved by waking a single waiter. All waiters
  are woken, as the loop of `unlock` keeps the next waiter at hand while it takes the first one off
  the list.
-/

namespace DemoOs

namespace Kernel

variable {k k' : Kernel} {R : Hdr → Cycle Node} {t c : Tid} {p : Prio} {σ : ℕ}

/-! ## Blocking -/

/-- `--_val`. -/
def decVal (k : Kernel) (σ : ℕ) : Kernel :=
  { k with val := Function.update k.val σ (sint (k.val σ - 1)) }

theorem decVal_val (k : Kernel) (σ : ℕ) : (k.decVal σ).val σ = sint (k.val σ - 1) :=
  Function.update_self ..

/-- The kernel after the thread `c` has gone to the waiter list of `σ`, the cursor of its ready ring
    having moved to `n`. -/
def blocked (k : Kernel) (σ : ℕ) (c : Tid) (p : Prio) (n : Node) (L : Links Node) : Kernel :=
  ({ k.decVal σ with links := L }.setCursor p n).setState (.thread c) .waiting

theorem lockSection_eq (k : Kernel) (σ : ℕ) :
    k.lockSection σ =
      if sint (k.val σ - 1) < 0 then do
        let k ← (k.decVal σ).suspend k.curThread
        let links ← k.links.insertBefore (.hdr (.waiters σ)) k.curThread
        some ({ k with links := links }, true)
      else some (k.decVal σ, false) := by
  simp only [lockSection, Function.update_self]
  rfl

theorem lockSection_of_nonneg (h : 0 ≤ sint (k.val σ - 1)) :
    k.lockSection σ = some (k.decVal σ, false) := by
  rw [lockSection_eq, if_neg (not_lt.2 h)]

theorem trylock_of_pos (h : 0 < k.val σ) : k.trylock σ = (k.decVal σ, true) := if_pos h

theorem trylock_of_not_pos (h : ¬0 < k.val σ) : k.trylock σ = (k, false) := if_neg h

/-- A caller without a permit goes from its ready ring to the waiter list. -/
theorem Shape.lockSection (hs : Shape k R) (hcur : k.curThread = .thread c)
    (hc : .thread c ∈ R (.ready p)) (hneg : sint (k.val σ - 1) < 0) :
    ∃ L' R' n, k.lockSection σ = some (k.blocked σ c p n L', true) ∧
      Shape (k.blocked σ c p n L') R' ∧
      (k.links.next (.thread c) = some n ∧ n ∈ R' (.ready p)) ∧
      ∀ j y, y ∈ R' j ↔ y ∈ R j ∧ y ≠ .thread c ∨ j = .waiters σ ∧ y = .thread c := by
  have hs₁ : Shape (k.decVal σ) R := hs.congr rfl rfl fun _ => rfl
  obtain ⟨L₁, R₁, n, hsusp, hs₂, hn, hmem₁⟩ := hs₁.suspend hc
  have hfree : ∀ h, .thread c ∉ R₁ h := fun h hc => ((hmem₁ h _).1 hc).2 rfl
  obtain ⟨L₂, R₂, hL₂, hs₃, hmem₂⟩ := hs₂.link (h := .waiters σ) hfree (by simp)
  have hmem : ∀ j y, y ∈ R₂ j ↔ y ∈ R j ∧ y ≠ .thread c ∨ j = .waiters σ ∧ y = .thread c := by
    intro j y
    rw [hmem₂, hmem₁]
  refine ⟨L₂, R₂, n, ?_, hs₃, ⟨hn.1, (hmem₂ _ _).2 (.inl hn.2)⟩, hmem⟩
  rw [lockSection_eq, if_pos hneg, hcur, hsusp]
  set k₂ := ({ k.decVal σ with links := L₁ }.setCursor p n).setState (.thread c) .waiting
  have hcur₂ : k₂.curThread = .thread c := hcur
  simp only [Option.bind_eq_bind, Option.bind_some, hcur₂, hL₂]
  exact congrArg
    (fun x => some (({ k₂ with links := L₂, curThread := x } : Kernel), true)) hcur₂.symm

theorem blocked_expiring_iff (n : Node) (L : Links Node) :
    (k.blocked σ c p n L).Expiring ↔ k.Expiring := by
  simp only [Expiring, blocked, setState, modThread_thr]
  split_ifs <;> rfl

theorem blocked_pending_iff (n : Node) (L : Links Node) :
    (k.blocked σ c p n L).Pending ↔ k.Pending := by
  rw [Pending, blocked, setState_priority]
  rfl

/-- `init` of a semaphore nobody waits for leaves the lists as they are. -/
theorem Shape.initSem (hs : Shape k R) (hw : ∀ t, ¬k.OnList (.waiters σ) t) (v : ℤ) :
    Shape (k.initSem σ v) R := by
  obtain ⟨ts, hts, -⟩ := hs.exists_threads (.waiters σ)
  obtain rfl : ts = [] := by
    refine List.eq_nil_iff_forall_not_mem.2 fun t ht => hw t (hs.onList_iff.2 ?_)
    rw [hts]
    simp [ht]
  have hlinked : k.links.Linked (.hdr (.waiters σ)) (.hdr (.waiters σ)) :=
    Links.IsRing.linked_singleton (hts ▸ hs.rings.ring (.waiters σ))
  have hlinks : k.links.initRing (.hdr (.waiters σ)) = k.links := by
    simp only [Links.initRing, Links.setNext, Links.setPrev]
    rw [← hlinked.1, Function.update_eq_self, hlinked.1, ← hlinked.2, Function.update_eq_self]
  exact hs.congr hlinks rfl fun _ => rfl

/-! ## Waking all waiters -/

/-- Waking the waiter `p`. -/
def wakeOne (k : Kernel) (σ : ℕ) (p : Node) : Option Kernel := do
  let links ← k.links.erase p
  { k.incVal σ with links := links }.wakeup p p

theorem wakeAll_succ (fuel : ℕ) (k : Kernel) (p n : Node) :
    wakeAll σ (fuel + 1) k p n =
      if p = .hdr (.waiters σ) then some k
      else (k.wakeOne σ p).bind fun k => (k.links.next n).bind (wakeAll σ fuel k n) := by
  rw [wakeAll, wakeOne]
  split_ifs with h
  · rfl
  · simp only [Option.bind_eq_bind, Option.bind_assoc]
    rfl

/-- A woken waiter leaves the list, the others staying there in their order. -/
theorem Shape.wakeOne {ts : List Tid} (hs : Shape k R)
    (hts : R (.waiters σ) = ↑(.hdr (.waiters σ) :: (t :: ts).map .thread : List Node)) :
    ∃ k' R', k.wakeOne σ (.thread t) = some k' ∧ Shape k' R' ∧
      R' (.waiters σ) = ↑(.hdr (.waiters σ) :: ts.map .thread : List Node) := by
  obtain ⟨L₁, R₁, hL₁, hs₁, hts₁, hmem₁⟩ := hs.unlink_first hts (by simp)
  have hs₁' : Shape { k.incVal σ with links := L₁ } R₁ := hs₁.congr rfl rfl fun _ => rfl
  have hfree : ∀ h, .thread t ∉ R₁ h := fun h ht => ((hmem₁ h _).1 ht).2 rfl
  simp only [Kernel.wakeOne, hL₁, Option.bind_eq_bind, Option.bind_some]
  by_cases hwait : (k.thr (.thread t)).state = .waiting
  · obtain ⟨L₂, R₂, hwake, hs₂, hother, -⟩ := hs₁'.wakeup_self hwait hfree
    exact ⟨_, R₂, hwake, hs₂, (hother _ (by simp)).trans hts₁⟩
  · exact ⟨{ k.incVal σ with links := L₁ }, R₁, if_neg hwait, hs₁', hts₁⟩

/-- A woken waiter leaves its list, and no list but a ready ring is entered. -/
theorem Shape.wakeOne_mem (hs : Shape k R) (ht : .thread t ∈ R (.waiters σ)) :
    ∃ k' R', k.wakeOne σ (.thread t) = some k' ∧ Shape k' R' ∧ k'.val = (k.incVal σ).val ∧
      k'.curThread = k.curThread ∧
      ∀ j, (∀ p, j ≠ .ready p) → ∀ y, y ∈ R' j ↔ y ∈ R j ∧ y ≠ .thread t := by
  obtain ⟨L₁, R₁, hL₁, hs₁, hmem₁⟩ := hs.unlink ht (by simp)
  have hs₁' : Shape { k.incVal σ with links := L₁ } R₁ := hs₁.congr rfl rfl fun _ => rfl
  have hfree : ∀ h, .thread t ∉ R₁ h := fun h ht => ((hmem₁ h _).1 ht).2 rfl
  simp only [Kernel.wakeOne, hL₁, Option.bind_eq_bind, Option.bind_some]
  by_cases hwait : (k.thr (.thread t)).state = .waiting
  · obtain ⟨L₂, R₂, hwake, hs₂, hother, -⟩ := hs₁'.wakeup_self hwait hfree
    refine ⟨_, R₂, hwake, hs₂, by rw [raise_val]; rfl, by rw [raise_curThread]; rfl,
      fun j hj y => ?_⟩
    rw [hother _ (hj _), hmem₁]
  · exact ⟨{ k.incVal σ with links := L₁ }, R₁, if_neg hwait, hs₁', rfl, rfl, fun j _ => hmem₁ j⟩

variable {I : Kernel → Prop}

/-- The loop of `unlock`, with the waiters `ts` left. -/
theorem wakeAll_rule {ts : List Tid} {fuel : ℕ} {x n : Node}
    (hwake : ∀ {k k' t}, I k → k.OnList (.waiters σ) t → k.wakeOne σ (.thread t) = some k' → I k')
    (hk : I k) (hs : Shape k R)
    (hts : R (.waiters σ) = ↑(.hdr (.waiters σ) :: ts.map .thread : List Node))
    (hfuel : ts.length < fuel) (hx : k.links.next (.hdr (.waiters σ)) = some x)
    (hn : k.links.next x = some n) :
    ∃ k' R', wakeAll σ fuel k x n = some k' ∧ I k' ∧ Shape k' R' ∧
      R' (.waiters σ) = ↑([.hdr (.waiters σ)] : List Node) := by
  induction ts generalizing k R fuel x n with
  | nil =>
    have hring : k.links.IsRing ↑([.hdr (.waiters σ)] : List Node) := hts ▸ hs.rings.ring _
    obtain ⟨fuel, rfl⟩ : ∃ m, fuel = m + 1 := ⟨fuel - 1, by omega⟩
    obtain rfl : x = .hdr (.waiters σ) := by
      simpa [hx] using hring.next_eq_head?
    exact ⟨k, R, by rw [wakeAll_succ, if_pos rfl], hk, hs, hts⟩
  | cons t ts ih =>
    have hring : k.links.IsRing ↑(.hdr (.waiters σ) :: (t :: ts).map .thread : List Node) :=
      hts ▸ hs.rings.ring _
    obtain ⟨fuel, rfl⟩ : ∃ m, fuel = m + 1 := ⟨fuel - 1, by omega⟩
    obtain rfl : x = .thread t := by
      simpa [hx] using hring.next_eq_head?
    have hmem : k.OnList (.waiters σ) t := hs.onList_iff.2 (by rw [hts]; simp)
    obtain ⟨k₁, R₁, hk₁, hs₁, hts₁⟩ := hs.wakeOne hts
    have hring₁ : k₁.links.IsRing ↑(.hdr (.waiters σ) :: ts.map .thread : List Node) :=
      hts₁ ▸ hs₁.rings.ring _
    -- The node after the first waiter is the one after the header once this waiter has left.
    have hn₁ : k₁.links.next (.hdr (.waiters σ)) = some n := by
      have hrot : k.links.IsRing
          ↑(.thread t :: (ts.map .thread ++ [.hdr (.waiters σ)]) : List Node) := by
        rw [Links.coe_cons_append]
        exact hring
      rw [hring₁.next_eq_head?, ← hn, hrot.next_eq_head?]
      simp
    have hmem₁ : n ∈ R₁ (.waiters σ) :=
      ((hs₁.rings.ring _).reaches_iff (hs₁.header _)).1 (.single hn₁)
    obtain ⟨m, -, hlink⟩ := (hs₁.rings.ring _).exists_next hmem₁
    have hfuel₁ : ts.length < fuel := by
      simp only [List.length_cons] at hfuel
      omega
    obtain ⟨k', R', hk', hI', hs', hts'⟩ := ih (hwake hk hmem hk₁) hs₁ hts₁ hfuel₁ hn₁ hlink.1
    refine ⟨k', R', ?_, hI', hs', hts'⟩
    rwa [wakeAll_succ, if_neg (by simp), hk₁, Option.bind_some, hlink.1, Option.bind_some]

/-- What waking a waiter preserves, `unlock` preserves; it leaves no waiters. -/
theorem unlock_rule (hshape : ∀ {k}, I k → ∃ R, Shape k R)
    (hwake : ∀ {k k' t}, I k → k.OnList (.waiters σ) t → k.wakeOne σ (.thread t) = some k' → I k')
    (hk : I (k.incVal σ)) :
    ∃ k', k.unlock σ = some k' ∧ I k' ∧ ∀ t, ¬k'.OnList (.waiters σ) t := by
  obtain ⟨R, hs⟩ := hshape hk
  obtain ⟨ts, hts, -⟩ := hs.exists_threads (.waiters σ)
  obtain ⟨x, hx, hlink⟩ := (hs.rings.ring (.waiters σ)).exists_next (hs.header _)
  obtain ⟨n, -, hlink'⟩ := (hs.rings.ring (.waiters σ)).exists_next hx
  have hfuel : ts.length < 2 ^ 32 := by
    have := hs.length_le hts
    simp only [List.length_cons, List.length_map] at this
    omega
  obtain ⟨k', R', hk', hI', hs', hempty⟩ := wakeAll_rule hwake hk hs hts hfuel hlink.1 hlink'.1
  refine ⟨k', ?_, hI', fun t ht => ?_⟩
  · simp only [unlock, hlink.1, hlink'.1, Option.bind_eq_bind, Option.bind_some]
    exact hk'
  · rw [hs'.onList_iff, hempty] at ht
    simp at ht

/-- Without waiters, the value is counted up, and that is all. -/
theorem Shape.unlock_of_no_waiters (hs : Shape k R) (hno : ∀ t, ¬k.OnList (.waiters σ) t) :
    k.unlock σ = some (k.incVal σ) := by
  obtain ⟨k', hk', rfl, -⟩ := unlock_rule (k := k) (σ := σ) (I := fun k' => k' = k.incVal σ)
    (fun h => ⟨R, h ▸ hs.congr rfl rfl fun _ => rfl⟩) (fun h ht _ => absurd (h ▸ ht) (hno _)) rfl
  exact hk'

end Kernel

end DemoOs
