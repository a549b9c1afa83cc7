import Mathlib.Data.Nat.Basic
import Mathlib.Tactic.TypeStar

/-!
# Loops

A loop runs its body as long as a condition holds, which may be for ever: `loop` takes the number of
times the condition may be evaluated, and gives nothing if that does not do. What is known of a loop
is known by an invariant that counts the turns still to be taken: from it the loop returns, whenever
it is given more time than that (`loop_spec`).
-/

namespace DemoOs

variable {σ : Type*} {cond : σ → Bool} {body : σ → σ} {s s' : σ} {n fuel : ℕ}

/-- `while (cond) body`. -/
def loop (cond : σ → Bool) (body : σ → σ) : ℕ → σ → Option σ
  | 0, _ => none
  | fuel + 1, s => if cond s then loop cond body fuel (body s) else some s

theorem loop_of_not (h : cond s = false) : loop cond body (fuel + 1) s = some s := by
  rw [loop, h]
  rfl

theorem loop_of_cond (h : cond s = true) :
    loop cond body (fuel + 1) s = loop cond body fuel (body s) := by
  rw [loop, h]
  rfl

/-- With `I n` there are `n` turns to be taken. -/
theorem loop_spec {I : ℕ → σ → Prop} (hbody : ∀ {n s}, I (n + 1) s → cond s = true ∧ I n (body s))
    (hstop : ∀ {s}, I 0 s → cond s = false) (h : I n s) (hn : n < fuel) :
    ∃ s', loop cond body fuel s = some s' ∧ I 0 s' := by
  induction n generalizing s fuel with
  | zero =>
    obtain ⟨fuel, rfl⟩ := Nat.exists_eq_succ_of_ne_zero (Nat.ne_of_gt hn)
    exact ⟨s, loop_of_not (hstop h), h⟩
  | succ n ih =>
    obtain ⟨fuel, rfl⟩ := Nat.exists_eq_succ_of_ne_zero (Nat.ne_of_gt (Nat.zero_lt_of_lt hn))
    obtain ⟨hcond, hnext⟩ := hbody h
    rw [loop_of_cond hcond]
    exact ih hnext (Nat.lt_of_succ_lt_succ hn)

end DemoOs
