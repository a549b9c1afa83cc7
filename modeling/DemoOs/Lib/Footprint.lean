import Mathlib.Data.Set.Piecewise

/-!
# What an operation leaves alone

An operation on a memory *spares* a set of addresses if it neither reads nor writes them: whatever
they hold, it does the same to all other addresses, and they hold it afterwards. This composes, and
it is a property of the stores of the operation: the addresses stored to are not in the set, and
what is stored does not depend on it.
-/

namespace DemoOs

variable {α β : Type*} {D : Set α} [DecidablePred (· ∈ D)] {f f' : (α → β) → α → β} {m : α → β}

/-- The operation `f` neither reads nor writes the addresses `D` of the memory `m`. -/
def Spares (D : Set α) [DecidablePred (· ∈ D)] (f : (α → β) → α → β) (m : α → β) : Prop :=
  ∀ g, f (D.piecewise g m) = D.piecewise g (f m)

/-- The addresses spared hold what they held. -/
theorem Spares.same (h : Spares D f m) {x : α} (hx : x ∈ D) : f m x = m x := by
  have := h m
  rw [Set.piecewise_same] at this
  rw [this, Set.piecewise_eq_of_mem _ _ _ hx]

theorem spares_id : Spares D (fun m => m) m := fun _ => rfl

theorem Spares.comp (h : Spares D f m) (h' : Spares D f' (f m)) : Spares D (fun m => f' (f m)) m :=
  fun g => by simp only [h g, h' g]

/-- An operation which does the same as one that spares `D`, whatever `D` holds. -/
theorem Spares.congr (h : Spares D f m) (hf : ∀ g, f' (D.piecewise g m) = f (D.piecewise g m)) :
    Spares D f' m := fun g => by
  have := hf m
  rw [Set.piecewise_same] at this
  rw [hf g, h g, this]

/-- An operation which keeps what is in `D`, and makes the same of the other addresses. -/
theorem spares_of_apply (hmem : ∀ g, ∀ x ∈ D, f (D.piecewise g m) x = D.piecewise g m x)
    (hnot : ∀ g, ∀ x ∉ D, f (D.piecewise g m) x = f m x) : Spares D f m := by
  intro g
  funext x
  by_cases hx : x ∈ D
  · rw [hmem g x hx, Set.piecewise_eq_of_mem _ _ _ hx, Set.piecewise_eq_of_mem _ _ _ hx]
  · rw [hnot g x hx, Set.piecewise_eq_of_notMem _ _ _ hx]

/-- A store outside of `D`. -/
theorem spares_update [DecidableEq α] {x : α} (hx : x ∉ D) (v : β) :
    Spares D (fun m => Function.update m x v) m := by
  refine spares_of_apply (fun g y hy => ?_) fun g y hy => ?_
  · have hyx : y ≠ x := fun e => hx (e ▸ hy)
    exact Function.update_of_ne hyx ..
  · simp only [Function.update_apply, Set.piecewise_eq_of_notMem _ _ _ hy]

end DemoOs
