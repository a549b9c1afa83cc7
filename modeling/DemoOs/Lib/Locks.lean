import Mathlib.Logic.Function.Basic
import Mathlib.Data.List.Induction

/-!
# Locks

What a function does with locks, and with the data they protect, is a list of actions. It is
disciplined if it releases each lock as often as it acquires it, releases none that it does not
hold, and accesses data only with the locks held that it has acquired at its entry (`Disciplined`).

Going through the actions with what is held of each lock decides it (`disciplined_iff`), and goes
through one part after the other (`Allowed.append`). A part that releases what it has acquired, and
accesses no data, is allowed wherever it stands (`Neutral`).
-/

namespace DemoOs

variable {L A : Type*}

inductive LockAct (L A : Type*)
  | acquire (l : L)
  | release (l : L)
  | access (a : A)
  deriving DecidableEq

namespace LockAct

/-- The locks acquired before anything else is done. -/
def entry : List (LockAct L A) → List L
  | acquire l :: acts => l :: entry acts
  | _ => []

variable [DecidableEq L] [DecidableEq A] {G : List L} {n : L → ℕ} {p q : List (LockAct L A)} {l : L}

structure Disciplined (acts : List (LockAct L A)) : Prop where
  balanced : ∀ l, acts.count (acquire l) = acts.count (release l)
  held : ∀ before l after, acts = before ++ release l :: after →
    before.count (release l) < before.count (acquire l)
  guarded : ∀ before a after, acts = before ++ access a :: after → ∀ l ∈ entry acts,
    before.count (release l) < before.count (acquire l)

/-- What is held after an action. -/
def hold (held : L → ℕ) : LockAct L A → L → ℕ
  | acquire l => Function.update held l (held l + 1)
  | release l => Function.update held l (held l - 1)
  | access _ => held

/-- What is held after actions. -/
def after (held : L → ℕ) (acts : List (LockAct L A)) : L → ℕ := acts.foldl hold held

/-- The action is allowed with what is held. -/
def May (guard : List L) (held : L → ℕ) : LockAct L A → Prop
  | acquire _ => True
  | release l => 0 < held l
  | access _ => ∀ l ∈ guard, 0 < held l

/-- Each action is allowed with what is held when it is done. -/
def Allowed (guard : List L) : (L → ℕ) → List (LockAct L A) → Prop
  | _, [] => True
  | held, act :: acts => May guard held act ∧ Allowed guard (hold held act) acts

omit [DecidableEq A]

theorem after_append : after n (p ++ q) = after (after n p) q := List.foldl_append

theorem Allowed.append : Allowed G n (p ++ q) ↔ Allowed G n p ∧ Allowed G (after n p) q := by
  induction p generalizing n with
  | nil => exact ⟨fun h => ⟨trivial, h⟩, And.right⟩
  | cons act p ih =>
      rw [List.cons_append, Allowed, ih, Allowed, and_assoc, after, after, List.foldl_cons]

/-- What is allowed with more to be held is allowed with less. -/
theorem Allowed.mono {H : List L} (h : Allowed G n p) (hguard : H ⊆ G) : Allowed H n p := by
  induction p generalizing n with
  | nil => trivial
  | cons act p ih =>
    refine ⟨?_, ih h.2⟩
    cases act with
    | acquire l => trivial
    | release l => exact h.1
    | access a => exact fun l hl => h.1 l (hguard hl)

/-! ## Parts -/

/-- The actions are allowed, and leave what is held as it is. -/
def Restores (guard : List L) (held : L → ℕ) (acts : List (LockAct L A)) : Prop :=
  Allowed guard held acts ∧ after held acts = held

theorem Restores.append (h : Restores G n p) (h' : Restores G n q) : Restores G n (p ++ q) := by
  refine ⟨Allowed.append.2 ⟨h.1, ?_⟩, ?_⟩
  · rw [h.2]
    exact h'.1
  · rw [after_append, h.2, h'.2]

/-- What is done with a lock held, which is released afterwards. -/
theorem Restores.locked (h : Restores G (Function.update n l (n l + 1)) p) :
    Restores G n (acquire l :: (p ++ [release l])) := by
  refine ⟨⟨trivial, Allowed.append.2 ⟨h.1, ?_, trivial⟩⟩, ?_⟩
  · rw [hold, h.2, May, Function.update_self]
    exact Nat.succ_pos _
  · rw [after, List.foldl_cons, ← after, after_append, hold, h.2, after, List.foldl_cons,
      List.foldl_nil, hold, Function.update_self, Function.update_idem, Nat.add_sub_cancel,
      Function.update_eq_self]

theorem restores_accesses (h : ∀ l ∈ G, 0 < n l) (as : List A) : Restores G n (as.map access) := by
  induction as with
  | nil => exact ⟨trivial, rfl⟩
  | cons a as ih => exact ⟨⟨h, ih.1⟩, ih.2⟩

/-- A lock that has just been acquired is held. -/
theorem held_of_mem_singleton {l' : L} (h : l' ∈ [l]) : 0 < Function.update n l (n l + 1) l' := by
  rw [List.mem_singleton.1 h, Function.update_self]
  exact Nat.succ_pos _

/-- The actions may be done anywhere, as no data is accessed. -/
def Neutral (acts : List (LockAct L A)) : Prop := ∀ guard held, Restores guard held acts

theorem neutral_nil : Neutral ([] : List (LockAct L A)) := fun _ _ => ⟨trivial, rfl⟩

theorem neutral_locked (l : L) : Neutral ([acquire l, release l] : List (LockAct L A)) :=
  fun _ _ => Restores.locked (p := []) ⟨trivial, rfl⟩

/-! ## Counting -/

variable [DecidableEq A]

theorem hold_add {act : LockAct L A} (hmay : May G n act) (l : L) :
    hold n act l + [act].count (release l) = n l + [act].count (acquire l) := by
  cases act with
  | acquire l' =>
    by_cases hl : l = l'
    · subst hl
      simp [hold]
    · simp [hold, Function.update_of_ne hl, Ne.symm hl]
  | release l' =>
    by_cases hl : l = l'
    · subst hl
      have hpos : 0 < n l := hmay
      have hacquire : [release l].count (acquire l : LockAct L A) = 0 := by simp
      rw [hold, Function.update_self, List.count_singleton_self, hacquire]
      omega
    · simp [hold, Function.update_of_ne hl, Ne.symm hl]
  | access a => simp [hold]

/-- What is held is what there was, and what has been acquired and not released. -/
theorem Allowed.after_add (h : Allowed G n p) (l : L) :
    after n p l + p.count (release l) = n l + p.count (acquire l) := by
  induction p generalizing n with
  | nil => rfl
  | cons act p ih =>
    have hstep := hold_add h.1 l
    have hrest := ih h.2
    have hcons : ∀ x : LockAct L A, (act :: p).count x = [act].count x + p.count x :=
      fun x => (List.count_append : ([act] ++ p).count x = _)
    rw [hcons, hcons, after, List.foldl_cons, ← after]
    omega

/-- From the left to the right, what is held is what the counts say. -/
theorem Disciplined.allowed (h : Disciplined p) (before rest : List (LockAct L A))
    (heq : p = before ++ rest) :
    Allowed (entry p) (fun _ => 0) before := by
  induction before using List.reverseRecOn generalizing rest with
  | nil => trivial
  | append_singleton before act ih =>
    rw [List.append_assoc] at heq
    have hbefore := ih _ heq
    refine Allowed.append.2 ⟨hbefore, ?_, trivial⟩
    cases act with
    | acquire l => trivial
    | release l =>
      have hcount := hbefore.after_add l
      have hlt := h.held before l rest heq
      change 0 < after _ before l
      omega
    | access a =>
      intro l hl
      have hcount := hbefore.after_add l
      have hlt := h.guarded before a rest heq l hl
      omega

theorem Restores.disciplined (h : Restores (entry p) (fun _ => 0) p) : Disciplined p := by
  obtain ⟨hallowed, hafter⟩ := h
  have hsplit : ∀ before act rest, p = before ++ act :: rest →
      Allowed (entry p) (fun _ => 0) before ∧ May (entry p) (after (fun _ => 0) before) act := by
    intro before act rest heq
    obtain ⟨hbefore, hmay, -⟩ := Allowed.append.1 (heq ▸ hallowed)
    exact ⟨heq ▸ hbefore, heq ▸ hmay⟩
  refine ⟨fun l => ?_, fun before l rest heq => ?_, fun before a rest heq l hl => ?_⟩
  · have hcount := hallowed.after_add l
    rw [congrFun hafter l] at hcount
    omega
  · obtain ⟨hbefore, hmay⟩ := hsplit _ _ _ heq
    have hcount := hbefore.after_add l
    have hpos : 0 < after (fun _ => 0) before l := hmay
    omega
  · obtain ⟨hbefore, hmay⟩ := hsplit _ _ _ heq
    have hcount := hbefore.after_add l
    have hpos := hmay l hl
    omega

theorem Neutral.disciplined (h : Neutral p) : Disciplined p := (h _ _).disciplined

theorem disciplined_iff : Disciplined p ↔ Restores (entry p) (fun _ => 0) p := by
  refine ⟨fun h => ?_, Restores.disciplined⟩
  have hallowed := h.allowed p [] (List.append_nil p).symm
  refine ⟨hallowed, funext fun l => ?_⟩
  have hcount := hallowed.after_add l
  have heq := h.balanced l
  omega

end LockAct

end DemoOs
