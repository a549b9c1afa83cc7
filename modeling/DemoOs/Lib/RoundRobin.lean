import Mathlib.Data.List.Nodup
import Mathlib.Tactic.TypeStar

/-!
# Round-robin queues

A *circular queue* (`Queue`) has a running element and the others, in the order in which they take
their turns. At the end of a turn (`Event.expire`) the next element runs, the one that was running
going to the end. An element comes in right after the running one (`Event.push`), or right before
it, which is at the end (`Event.append`).

* `Queue.dispatches`: the elements that get to run, in order;
* `Queue.dispatches_expire`: without insertions, these are the elements of the queue in turn
  (`turns`), and so are those of them that have some property (`exists_filter_turns`);
* `Queue.dispatches_round`: in a round, every element runs once, the running one last;
* `Queue.dispatches_append`: an element appended runs after all those that were there.
-/

namespace DemoOs

/-- A circular queue. -/
structure Queue (α : Type*) where
  running : α
  others : List α

namespace Queue

variable {α : Type*}

/-- What happens to a circular queue. -/
inductive Event (α : Type*)
  | expire
  | push (x : α)
  | append (x : α)

/-- The next element runs. -/
def expire (q : Queue α) : Queue α :=
  match q.others with
  | [] => q
  | x :: xs => ⟨x, xs ++ [q.running]⟩

/-- The queue after an event. -/
def step (q : Queue α) : Event α → Queue α
  | .expire => q.expire
  | .push x => ⟨q.running, x :: q.others⟩
  | .append x => ⟨q.running, q.others ++ [x]⟩

/-- The elements that get to run, at the ends of the turns. -/
def dispatches (q : Queue α) : List (Event α) → List α
  | [] => []
  | .expire :: es => q.expire.running :: q.expire.dispatches es
  | e :: es => (q.step e).dispatches es

/-- The elements of the queue. -/
def elems (q : Queue α) : List α := q.running :: q.others

@[simp] theorem expire_nil (x : α) : expire ⟨x, []⟩ = ⟨x, []⟩ := rfl

@[simp] theorem expire_cons (x y : α) (ys : List α) : expire ⟨x, y :: ys⟩ = ⟨y, ys ++ [x]⟩ := rfl

/-- As many turns as there are others before the `xs`: these run, in order, and are now at the
    end. -/
theorem dispatches_replicate (x : α) (xs ys : List α) :
    dispatches ⟨x, xs ++ ys⟩ (List.replicate xs.length .expire) = xs := by
  induction xs generalizing x ys with
  | nil => rfl
  | cons y xs ih =>
    rw [List.length_cons, List.replicate_succ, List.cons_append, dispatches, expire_cons,
      List.append_assoc, ih]

/-- In a round, every element runs once. -/
theorem dispatches_round (q : Queue α) :
    q.dispatches (List.replicate q.elems.length .expire) = q.others ++ [q.running] := by
  obtain ⟨x, _ | ⟨y, ys⟩⟩ := q
  · rfl
  · have h := dispatches_replicate y (ys ++ [x]) []
    rw [List.append_nil, List.length_append] at h
    simp only [elems, List.length_cons, List.replicate_succ, dispatches, expire_cons] at h ⊢
    exact congrArg (y :: ·) h

/-- An element appended runs after all the others. -/
theorem dispatches_append (q : Queue α) (x : α) :
    q.dispatches (.append x :: List.replicate (q.others.length + 1) .expire) = q.others ++ [x] := by
  have h := dispatches_replicate q.running (q.others ++ [x]) []
  rwa [List.append_nil, List.length_append] at h

/-! ## Turns -/

/-- The elements in the order in which they run next. -/
def upcoming (q : Queue α) : List α := q.others ++ [q.running]

theorem upcoming_expire {q : Queue α} {x : α} {xs : List α} (h : q.upcoming = x :: xs) :
    q.expire.running = x ∧ q.expire.upcoming = xs ++ [x] := by
  obtain ⟨y, _ | ⟨z, zs⟩⟩ := q
  · obtain ⟨rfl, rfl⟩ := List.cons.inj h
    exact ⟨rfl, rfl⟩
  · obtain ⟨rfl, rfl⟩ := List.cons.inj h
    exact ⟨rfl, rfl⟩

end Queue

/-- The first `n` turns of the elements of a list, who take them one after the other. -/
def turns {α : Type*} : ℕ → List α → List α
  | 0, _ => []
  | _ + 1, [] => []
  | n + 1, x :: xs => x :: turns n (xs ++ [x])

namespace Queue

variable {α : Type*}

/-- At the ends of the turns, the elements of the queue run one after the other. -/
theorem dispatches_expire (q : Queue α) (n : ℕ) :
    q.dispatches (List.replicate n .expire) = turns n q.upcoming := by
  induction n generalizing q with
  | zero => rfl
  | succ n ih =>
    obtain ⟨x, xs, h⟩ := List.exists_cons_of_ne_nil (l := q.upcoming) (by simp [upcoming])
    obtain ⟨hrun, hnext⟩ := upcoming_expire h
    rw [List.replicate_succ, dispatches, ih, hrun, hnext, h, turns]

/-- Of the first turns, those of some of the elements are turns of these elements alone. -/
theorem exists_filter_turns (p : α → Bool) (n : ℕ) (xs : List α) :
    ∃ m, (turns n xs).filter p = turns m (xs.filter p) := by
  induction n generalizing xs with
  | zero => exact ⟨0, rfl⟩
  | succ n ih =>
    obtain _ | ⟨x, xs⟩ := xs
    · exact ⟨0, rfl⟩
    obtain ⟨m, hm⟩ := ih (xs ++ [x])
    rw [turns]
    by_cases hx : p x
    · rw [List.filter_append, List.filter_cons_of_pos hx, List.filter_nil] at hm
      exact ⟨m + 1, by rw [List.filter_cons_of_pos hx, List.filter_cons_of_pos hx, hm, turns]⟩
    · rw [List.filter_append, List.filter_cons_of_neg hx, List.filter_nil, List.append_nil] at hm
      exact ⟨m, by rw [List.filter_cons_of_neg hx, List.filter_cons_of_neg hx, hm]⟩

/-- The first of these elements gets its turn. -/
theorem exists_filter_turns_eq_singleton {p : α → Bool} {xs ys : List α} {y : α}
    (h : xs.filter p = y :: ys) : ∃ n, (turns n xs).filter p = [y] := by
  obtain ⟨s₁, s₂, rfl, hs₁, hy, -⟩ := List.filter_eq_cons_iff.1 h
  refine ⟨s₁.length + 1, ?_⟩
  clear h
  induction s₁ generalizing s₂ with
  | nil => simp [turns, hy]
  | cons z s₁ ih =>
    have hz : ¬p z := hs₁ z List.mem_cons_self
    rw [List.cons_append, List.length_cons, turns, List.filter_cons_of_neg hz, List.append_assoc]
    exact ih (s₂ ++ [z]) fun w hw => hs₁ w (List.mem_cons_of_mem _ hw)

/-! ## Searching from another place -/

theorem find?_getD_of_append {p : α → Bool} {xs : List α} {x y : α}
    (h : (xs ++ [x]).find? p = some y) : (xs.find? p).getD x = y := by
  rw [List.find?_append] at h
  cases hxs : xs.find? p with
  | none =>
    rw [hxs, Option.none_or] at h
    exact List.mem_singleton.1 (List.mem_of_find?_eq_some h) |>.symm
  | some z =>
    rw [hxs, Option.some_or] at h
    exact Option.some.inj h

/-- Round a circle with the elements `c`, `xs`, `x` and `ys`, a search that begins after `x` finds
    the same as one that begins after `c` exactly if there is something to find in just one of the
    two arcs between them. -/
theorem find?_getD_eq_iff {p : α → Bool} {xs ys : List α} {c x : α}
    (hnd : (c :: (xs ++ x :: ys)).Nodup) :
    ((ys ++ c :: xs).find? p).getD x = ((xs ++ x :: ys).find? p).getD c ↔
      ((∃ y ∈ xs ++ [x], p y) ↔ ∀ y ∈ ys ++ [c], ¬p y) := by
  rw [List.append_cons ys c xs, List.append_cons xs x ys, List.find?_append,
    @List.find?_append _ p (xs ++ [x]) ys, ← List.find?_isSome, ← List.find?_eq_none]
  -- The two searches start at `c` and at `x`, and go round the same ring.
  rw [List.append_cons, List.nodup_cons, List.nodup_append] at hnd
  cases hys : (ys ++ [c]).find? p with
  | none =>
    have hys' := List.find?_eq_none.2 fun z hz =>
      List.find?_eq_none.1 hys z (List.mem_append_left _ hz)
    cases hxs : (xs ++ [x]).find? p with
    | none =>
      have hxs' := List.find?_eq_none.2 fun z hz =>
        List.find?_eq_none.1 hxs z (List.mem_append_left _ hz)
      have hne : x ≠ c := by
        rintro rfl
        simp at hnd
      simp [hxs', hys', hne]
    | some z => simp [find?_getD_of_append hxs]
  | some y =>
    cases hxs : (xs ++ [x]).find? p with
    | none => simp [find?_getD_of_append hys]
    | some z =>
      have hne : y ≠ z := by
        rintro rfl
        have hy := List.mem_of_find?_eq_some hxs
        rcases List.mem_append.1 (List.mem_of_find?_eq_some hys) with h | h
        · exact hnd.2.2.2 y hy y h rfl
        · obtain rfl := List.mem_singleton.1 h
          exact hnd.1 (List.mem_append_left _ hy)
      simp [hne]

end Queue

end DemoOs
