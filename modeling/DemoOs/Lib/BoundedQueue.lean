import Mathlib.Data.List.Basic

/-!
# Bounded queues

Queues of at most `k` elements, as lists with the oldest element in front. Elements that do not fit
are either refused (`put`) or push out the oldest ones (`force`). Putting many elements is putting
one after the other (`put_append`, `force_append`).
-/

namespace DemoOs

namespace BoundedQueue

variable {α : Type*} {k : ℕ} {q es es' : List α} {e : α}

/-- The elements are put at the back, those that do not fit being refused. -/
def put (k : ℕ) (q es : List α) : List α := q ++ es.take (k - q.length)

/-- The elements are put at the back, the oldest ones being dropped for them. -/
def force (k : ℕ) (q es : List α) : List α := (q ++ es).drop (q.length + es.length - k)

theorem length_put_le (hq : q.length ≤ k) : (put k q es).length ≤ k := by
  simp only [put, List.length_append, List.length_take]
  omega

@[simp] theorem put_nil : put k q [] = q := by simp [put]

@[simp] theorem force_nil (hq : q.length ≤ k) : force k q [] = q := by
  simp [force, Nat.sub_eq_zero_of_le hq]

theorem put_of_full (h : q.length = k) : put k q es = q := by simp [put, h]

theorem put_of_fits (h : q.length + es.length ≤ k) : put k q es = q ++ es := by
  rw [put, List.take_of_length_le (by omega)]

theorem force_of_fits (h : q.length + es.length ≤ k) : force k q es = q ++ es := by
  rw [force, Nat.sub_eq_zero_of_le h, List.drop_zero]

theorem put_append (hq : q.length ≤ k) : put k q (es ++ es') = put k (put k q es) es' := by
  simp only [put, List.take_append, List.append_assoc, List.length_append, List.length_take]
  congr 3
  omega

theorem force_append : force k q (es ++ es') = force k (force k q es) es' := by
  have hpart : force k q es ++ es' = (q ++ es ++ es').drop (q.length + es.length - k) :=
    (List.drop_append_of_le_length (by simp)).symm
  rw [force, force, hpart, List.drop_drop, ← List.append_assoc]
  simp only [force, List.length_drop, List.length_append]
  congr 1
  omega

/-- With the queue full, one more element pushes out the oldest. -/
theorem force_of_full (h : q.length = k) (hk : 0 < k) : force k q [e] = q.tail ++ [e] := by
  rw [force, List.length_singleton, h, Nat.add_sub_cancel_left,
    List.drop_append_of_le_length (by omega), List.drop_one]

end BoundedQueue

end DemoOs
