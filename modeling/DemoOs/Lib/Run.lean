import Mathlib.Tactic.SplitIfs
import Mathlib.Tactic.TypeStar

/-!
# Runs

A transition function `step` takes a state and an action to the next state, if it returns at all.
Which actions may be taken in a state is up to a guard `P`. `Run step P s s'` says that `s'` is
reached from `s` by actions meeting the guard; what every such action preserves, a run preserves
(`Run.invariant`). With a decidable guard, runs may be executed (`Run.exists_of_execute`).

Where every action returns, and puts something out, two systems put out the same if there is a
simulation (`Simulation.outputs_eq`), which may be one of guarded actions
(`SimulationOn.outputs_eq`).
-/

namespace DemoOs

variable {σ ι : Type*} {step : σ → ι → Option σ} {P : σ → ι → Prop} {s s' : σ}

/-- The states reached from `s` by actions meeting the guard `P`. -/
inductive Run (step : σ → ι → Option σ) (P : σ → ι → Prop) (s : σ) : σ → Prop
  | refl : Run step P s s
  | tail {s' s'' : σ} {i : ι} : Run step P s s' → P s' i → step s' i = some s'' → Run step P s s''

/-- A property preserved by every action is preserved by every run. -/
theorem Run.invariant {I : σ → Prop}
    (hI : ∀ {s i s'}, I s → P s i → step s i = some s' → I s') (hrun : Run step P s s')
    (hs : I s) : I s' := by
  induction hrun with
  | refl => exact hs
  | tail _ hP hstep ih => exact hI ih hP hstep

theorem Run.trans {s'' : σ} (h₁ : Run step P s s') (h₂ : Run step P s' s'') : Run step P s s'' := by
  induction h₂ with
  | refl => exact h₁
  | tail _ hP hstep ih => exact ih.tail hP hstep

theorem Run.mono {Q : σ → ι → Prop} (hPQ : ∀ s i, P s i → Q s i) (h : Run step P s s') :
    Run step Q s s' := by
  induction h with
  | refl => exact .refl
  | tail _ hP hstep ih => exact ih.tail (hPQ _ _ hP) hstep

/-- Each action of the list meets the guard in the state in which it is taken. -/
def Admissible (step : σ → ι → Option σ) (P : σ → ι → Prop) : σ → List ι → Prop
  | _, [] => True
  | s, i :: is => P s i ∧ ∀ s', step s i = some s' → Admissible step P s' is

theorem Admissible.of_forall (h : ∀ s i, P s i) (is : List ι) : Admissible step P s is := by
  induction is generalizing s with
  | nil => trivial
  | cons i is ih => exact ⟨h s i, fun _ _ => ih⟩

theorem Admissible.mono {Q : σ → ι → Prop} (hPQ : ∀ s i, P s i → Q s i) {is : List ι}
    (h : Admissible step P s is) : Admissible step Q s is := by
  induction is generalizing s with
  | nil => trivial
  | cons i is ih => exact ⟨hPQ _ _ h.1, fun s' hs' => ih (h.2 s' hs')⟩

/-- An action that returns, and the rest. -/
theorem Admissible.cons_iff {i : ι} {is : List ι} (h : step s i = some s') :
    Admissible step P s (i :: is) ↔ P s i ∧ Admissible step P s' is :=
  and_congr_right fun _ =>
    ⟨fun hrest => hrest s' h, fun hrest _ ht => Option.some.inj (h.symm.trans ht) ▸ hrest⟩

/-- Two guards admit the same actions if they agree where an invariant holds, which the actions they
    admit preserve. -/
theorem Admissible.iff {G Q : σ → ι → Prop} {I : σ → Prop}
    (hPQ : ∀ {s i}, I s → G s i → (P s i ↔ Q s i))
    (hI : ∀ {s i s'}, I s → G s i → Q s i → step s i = some s' → I s') (hs : I s) {is : List ι}
    (h : Admissible step G s is) : Admissible step P s is ↔ Admissible step Q s is := by
  induction is generalizing s with
  | nil => exact .rfl
  | cons i is ih =>
    rw [Admissible, Admissible, hPQ hs h.1]
    exact and_congr_right fun hQ => forall₂_congr fun s' hs' =>
      ih (hI hs h.1 hQ hs') (h.2 s' hs')

/-- Taking the actions of a list, each of them meeting the guard. -/
def execute (step : σ → ι → Option σ) (P : σ → ι → Prop) [∀ s i, Decidable (P s i)] (s : σ) :
    List ι → Option σ
  | [] => some s
  | i :: is => if P s i then (step s i).bind fun s' => execute step P s' is else none

theorem Run.of_execute [∀ s i, Decidable (P s i)] {is : List ι}
    (h : execute step P s is = some s') : Run step P s s' := by
  induction is generalizing s with
  | nil => exact Option.some.inj h ▸ .refl
  | cons i is ih =>
    rw [execute] at h
    split_ifs at h with hP
    obtain ⟨t, ht, hrest⟩ := Option.bind_eq_some_iff.1 h
    exact (Run.refl.tail hP ht).trans (ih hrest)

/-- The state reached by a list of actions, when something is known of it. -/
theorem Run.exists_of_execute [∀ s i, Decidable (P s i)] {is : List ι} {α : Type*} {f : σ → α}
    {x : α} (h : (execute step P s is).map f = some x) : ∃ s', Run step P s s' ∧ f s' = x := by
  obtain ⟨s', hs', hx⟩ := Option.map_eq_some_iff.1 h
  exact ⟨s', .of_execute hs', hx⟩

/-! ## Outputs -/

variable {τ α : Type*}

/-- What a list of actions puts out. -/
def outputs (step : σ → ι → List α × σ) : σ → List ι → List α
  | _, [] => []
  | s, i :: is => (step s i).1 ++ outputs step (step s i).2 is

/-- Related states put out the same at every action, and are related after it. -/
def Simulation (step : σ → ι → List α × σ) (step' : τ → ι → List α × τ) (R : σ → τ → Prop) : Prop :=
  ∀ {s t}, R s t → ∀ i, (step s i).1 = (step' t i).1 ∧ R (step s i).2 (step' t i).2

theorem Simulation.outputs_eq {step : σ → ι → List α × σ} {step' : τ → ι → List α × τ}
    {R : σ → τ → Prop}
    (hR : Simulation step step' R) {s : σ} {t : τ} (h : R s t) (is : List ι) :
    outputs step s is = outputs step' t is := by
  induction is generalizing s t with
  | nil => rfl
  | cons i is ih =>
    obtain ⟨hout, hnext⟩ := hR h i
    rw [outputs, outputs, hout, ih hnext]

/-- A simulation of those actions that meet the guard `P`. -/
def SimulationOn (P : τ → ι → Prop) (step : σ → ι → List α × σ) (step' : τ → ι → List α × τ)
    (R : σ → τ → Prop) : Prop :=
  ∀ {s t i}, R s t → P t i → (step s i).1 = (step' t i).1 ∧ R (step s i).2 (step' t i).2

theorem SimulationOn.outputs_eq {P : τ → ι → Prop} {step : σ → ι → List α × σ}
    {step' : τ → ι → List α × τ}
    {R : σ → τ → Prop} (hR : SimulationOn P step step' R) {s : σ} {t : τ} (h : R s t) {is : List ι}
    (his : Admissible (fun t i => some (step' t i).2) P t is) :
    outputs step s is = outputs step' t is := by
  induction is generalizing s t with
  | nil => rfl
  | cons i is ih =>
    obtain ⟨hout, hnext⟩ := hR h his.1
    rw [outputs, outputs, hout, ih hnext (his.2 _ rfl)]

/-- Two systems that take the same actions. -/
def both (step : σ → ι → List α × σ) (step' : τ → ι → List α × τ) (s : σ × τ) (i : ι) :
    Option (σ × τ) :=
  some ((step s.1 i).2, (step' s.2 i).2)

/-- Their states stay related. -/
theorem SimulationOn.related {P : τ → ι → Prop} {step : σ → ι → List α × σ}
    {step' : τ → ι → List α × τ}
    {R : σ → τ → Prop} (hR : SimulationOn P step step' R) {s s' : σ} {t t' : τ} (h : R s t)
    (hrun : Run (both step step') (fun s i => P s.2 i) (s, t) (s', t')) : R s' t' :=
  hrun.invariant (I := fun s => R s.1 s.2)
    (fun hs hP hstep => Option.some.inj hstep ▸ (hR hs hP).2) h

end DemoOs
