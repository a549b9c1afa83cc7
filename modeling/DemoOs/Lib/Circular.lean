import Mathlib.Data.List.Range

/-!
# Circular buffers

A buffer of `c` slots, holding `n` elements from the slot `r` on, going around at the end
(`window`). An element is taken at the front by moving `r` on (`window_front`), put at the back in
the slot after the last (`window_back`), and put at the front by moving `r` back (`window_push`).
-/

namespace DemoOs

namespace Circular

variable {β : Type*} {c r n : ℕ} {f g : ℕ → β}

/-- The contents of the `n` slots from `r` on. -/
def window (c r n : ℕ) (f : ℕ → β) : List β := (List.range n).map fun i => f ((r + i) % c)

@[simp] theorem window_zero : window c r 0 f = [] := rfl

@[simp] theorem length_window : (window c r n f).length = n := by simp [window]

theorem window_mod : window c (r % c) n f = window c r n f := by
  simp only [window, Nat.mod_add_mod]

theorem window_congr (h : ∀ i < n, f ((r + i) % c) = g ((r + i) % c)) :
    window c r n f = window c r n g :=
  List.map_congr_left fun i hi => h i (List.mem_range.1 hi)

/-- The element at the front. -/
theorem window_front : window c r (n + 1) f = f (r % c) :: window c (r + 1) n f := by
  rw [window, List.range_succ_eq_map, List.map_cons, List.map_map]
  refine congrArg (f (r % c) :: ·) (List.map_congr_left fun i _ => ?_)
  simp only [Function.comp_apply, Nat.succ_eq_add_one, Nat.add_assoc, Nat.add_comm 1 i]

/-- The element at the back. -/
theorem window_back : window c r (n + 1) f = window c r n f ++ [f ((r + n) % c)] := by
  rw [window, List.range_succ, List.map_append]
  rfl

theorem window_append {m : ℕ} :
    window c r (m + n) f = window c r m f ++ window c (r + m) n f := by
  simp only [window, List.range_add, List.map_append, List.map_map]
  refine congrArg (_ ++ ·) (List.map_congr_left fun i _ => ?_)
  simp only [Function.comp_apply, Nat.add_assoc]

/-- The slot before `r`. -/
def before (c r : ℕ) : ℕ := if r = 0 then c - 1 else r - 1

theorem before_lt (hr : r < c) : before c r < c := by
  unfold before
  split_ifs <;> omega

theorem before_succ_mod (hr : r < c) : (before c r + 1) % c = r := by
  unfold before
  split_ifs with h
  · rw [h, Nat.sub_add_cancel (by omega), Nat.mod_self]
  · rw [Nat.sub_add_cancel (by omega), Nat.mod_eq_of_lt hr]

/-- An element put at the front. -/
theorem window_push (hr : r < c) :
    window c (before c r) (n + 1) f = f (before c r) :: window c r n f := by
  rw [window_front, Nat.mod_eq_of_lt (before_lt hr), ← window_mod, before_succ_mod hr]

/-- Slots less than a round apart are different. -/
theorem slot_ne {i j : ℕ} (hij : i < j) (hj : j < i + c) : (r + i) % c ≠ (r + j) % c := by
  intro h
  have hsub := Nat.sub_mod_eq_zero_of_mod_eq h.symm
  rw [Nat.add_sub_add_left, Nat.mod_eq_of_lt (by omega)] at hsub
  omega

/-- The slots of a window that does not fill the buffer are not the one before it. -/
theorem before_ne {i : ℕ} (hr : r < c) (hi : i < n) (hn : n < c) : (r + i) % c ≠ before c r := by
  have hne := slot_ne (r := before c r) (c := c) (i := 0) (j := i + 1) (by omega) (by omega)
  rw [Nat.add_zero, Nat.mod_eq_of_lt (before_lt hr), Nat.add_comm i 1, ← Nat.add_assoc,
    Nat.add_mod, before_succ_mod hr, Nat.add_mod_mod] at hne
  exact hne.symm

end Circular

end DemoOs
