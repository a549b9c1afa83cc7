import DemoOs.Lib.Run
import Mathlib.Logic.Function.Basic
import Mathlib.Algebra.BigOperators.Group.List.Basic

/-!
# Reservations

A loop loads a word with a reservation, computes what is to be stored instead, and stores it if the
reservation is still held; otherwise there is another turn (`retry`). A turn computes from the word
it has loaded and from the registers, which are as the turns before have left them (`carried`).

Any number of such loops may be under way on one word, and others may store to it as well, in any
order (`step`). The word is then what the updates that have been made, one after the other, make of
it (`run_word_eq`): an update by a loop is all of what `retry` makes of the word it is applied to
and of words that the turns before have loaded (`apply_done`). No update is lost, and none is made
twice.
-/

namespace DemoOs

namespace Reservation

variable {ι α σ β : Type*} {turn : α → σ → α × σ}

/-! ## One loop -/

/-- The loop, with the words that are loaded and whether the store succeeds: what is stored at last,
    and the registers. -/
def retry (turn : α → σ → α × σ) : List (α × Bool) → σ → Option (α × σ)
  | [], _ => none
  | (cur, true) :: _, regs => some (turn cur regs)
  | (cur, false) :: rest, regs => retry turn rest (turn cur regs).2

/-- All stores but the last fail. -/
def attempts (failed : List α) (last : α) : List (α × Bool) :=
  failed.map (·, false) ++ [(last, true)]

/-- The registers after turns that could not store. -/
def carried (turn : α → σ → α × σ) (failed : List α) (regs : σ) : σ :=
  failed.foldl (fun regs cur => (turn cur regs).2) regs

theorem carried_append (failed : List α) (cur : α) (regs : σ) :
    carried turn (failed ++ [cur]) regs = (turn cur (carried turn failed regs)).2 := by
  rw [carried, List.foldl_append]
  rfl

theorem retry_attempts (failed : List α) (last : α) (regs : σ) :
    retry turn (attempts failed last) regs = some (turn last (carried turn failed regs)) := by
  induction failed generalizing regs with
  | nil => rfl
  | cons cur failed ih => exact ih _

/-- What no turn changes is as it was. -/
theorem carried_eq {f : σ → β} (h : ∀ cur regs, f (turn cur regs).2 = f regs) (failed : List α)
    (regs : σ) :
    f (carried turn failed regs) = f regs := by
  induction failed generalizing regs with
  | nil => rfl
  | cons cur failed ih => exact (ih _).trans (h cur regs)

/-- If the turns leave alone what they compute from, the loop does what the last one would do
    alone. -/
theorem retry_of_keeps {f : σ → β} (hkeep : ∀ cur regs, f (turn cur regs).2 = f regs)
    (hturn : ∀ cur {regs regs'}, f regs = f regs' → turn cur regs = turn cur regs')
    (failed : List α) (last : α)
    (regs : σ) : retry turn (attempts failed last) regs = some (turn last regs) := by
  rw [retry_attempts, hturn last (carried_eq hkeep failed regs)]

/-! ## The word -/

/-- A loop under way: the registers it has begun with, the words loaded by the turns that could not
    store, the registers, and the word loaded by this turn, with whether the reservation is held. -/
structure Call (α σ : Type*) where
  operand : σ
  failed : List α
  regs : σ
  cur : Option (α × Bool)

/-- What has been made of the word. -/
inductive Update (α σ : Type*)
  | done (operand : σ) (failed : List α)
  | wrote (val : α)

/-- A word, with the loops under way and the updates made. -/
structure Shared (ι α σ : Type*) where
  word : α
  calls : ι → Option (Call α σ)
  log : List (Update α σ)

inductive Act (ι α σ : Type*)
  | call (i : ι) (operand : σ)
  | load (i : ι)
  | lose (i : ι)
  | store (i : ι)
  | write (val : α)

def Call.lose (c : Call α σ) : Call α σ := { c with cur := c.cur.map fun x => (x.1, false) }

/-- A store to the word takes all reservations. -/
def step [DecidableEq ι] (turn : α → σ → α × σ) (s : Shared ι α σ) : Act ι α σ →
    Option (Shared ι α σ)
  | .call i operand =>
    match s.calls i with
    | none => some { s with calls := Function.update s.calls i (some ⟨operand, [], operand, none⟩) }
    | some _ => none
  | .load i =>
    match s.calls i with
    | some ⟨operand, failed, regs, none⟩ =>
      some { s with
        calls := Function.update s.calls i (some ⟨operand, failed, regs, some (s.word, true)⟩) }
    | _ => none
  | .lose i => some { s with calls := Function.update s.calls i ((s.calls i).map Call.lose) }
  | .store i =>
    match s.calls i with
    | some ⟨operand, failed, regs, some (cur, true)⟩ =>
      some ⟨(turn cur regs).1, Function.update (fun j => (s.calls j).map Call.lose) i none,
        s.log ++ [.done operand failed]⟩
    | some ⟨operand, failed, regs, some (cur, false)⟩ =>
      some { s with
        calls := Function.update s.calls i
          (some ⟨operand, failed ++ [cur], (turn cur regs).2, none⟩) }
    | _ => none
  | .write val => some ⟨val, fun j => (s.calls j).map Call.lose, s.log ++ [.wrote val]⟩

/-- What an update makes of the word. -/
def Update.apply (turn : α → σ → α × σ) (w : α) : Update α σ → α
  | .done operand failed => (turn w (carried turn failed operand)).1
  | .wrote val => val

/-- An update by a loop is what the loop makes of the word, with the words loaded before. -/
theorem apply_done (w : α) (operand : σ) (failed : List α) :
    (retry turn (attempts failed w) operand).map Prod.fst =
      some ((Update.done operand failed).apply turn w) := by
  rw [retry_attempts]
  rfl

/-- The registers are as the turns have left them, and what has been loaded with a reservation that
    is held is what is in the word. -/
structure Call.Sound (turn : α → σ → α × σ) (w : α) (c : Call α σ) : Prop where
  regs : c.regs = carried turn c.failed c.operand
  cur : ∀ val, c.cur = some (val, true) → val = w

theorem Call.Sound.lose {c : Call α σ} {w : α} (h : c.Sound turn w) (w' : α) :
    c.lose.Sound turn w' where
  regs := h.regs
  cur val hval := by
    obtain ⟨x, -, hx⟩ := Option.map_eq_some_iff.1 hval
    exact absurd (Prod.mk.inj hx).2 Bool.false_ne_true

structure Sound (turn : α → σ → α × σ) (w : α) (s : Shared ι α σ) : Prop where
  word : s.word = s.log.foldl (Update.apply turn) w
  calls : ∀ i c, s.calls i = some c → c.Sound turn s.word

/-! ## Runs -/

variable {s s' : Shared ι α σ} {w : α}

/-- No loop is under way, and no update has been made. -/
def init (w : α) : Shared ι α σ := ⟨w, fun _ => none, []⟩

theorem sound_init (w : α) : Sound turn w (init w : Shared ι α σ) := ⟨rfl, fun _ _ hc => nomatch hc⟩

/-- All reservations have been taken. -/
theorem Sound.lose (h : Sound turn w s) (w' : α) (j : ι) (c : Call α σ)
    (hc : (s.calls j).map Call.lose = some c) : c.Sound turn w' := by
  obtain ⟨c, hcall, rfl⟩ := Option.map_eq_some_iff.1 hc
  exact (h.calls j c hcall).lose w'

variable [DecidableEq ι]

theorem sound_update {calls : ι → Option (Call α σ)} {i : ι} {call : Option (Call α σ)}
    (hcalls : ∀ j c, calls j = some c → c.Sound turn w)
    (hcall : ∀ c, call = some c → c.Sound turn w) (j : ι)
    (c : Call α σ) (hc : Function.update calls i call j = some c) : c.Sound turn w := by
  by_cases hij : j = i
  · rw [hij, Function.update_self] at hc
    exact hcall c hc
  · rw [Function.update_of_ne hij] at hc
    exact hcalls j c hc

theorem Sound.step {act : Act ι α σ} (h : Sound turn w s) (hstep : step turn s act = some s') :
    Sound turn w s' := by
  -- The reservation is what relates a value loaded to the word.
  cases act with
  | call i operand =>
    rw [Reservation.step] at hstep
    split at hstep <;> cases hstep
    refine ⟨h.word, sound_update h.calls fun c hc => ?_⟩
    cases hc
    exact ⟨rfl, fun _ hval => nomatch hval⟩
  | load i =>
    rw [Reservation.step] at hstep
    split at hstep <;> cases hstep
    rename_i operand failed regs hcall
    refine ⟨h.word, sound_update h.calls fun c hc => ?_⟩
    cases hc
    exact ⟨(h.calls i _ hcall).regs, fun val hval => by cases hval; rfl⟩
  | lose i =>
    cases hstep
    exact ⟨h.word, sound_update h.calls (h.lose _ i)⟩
  | store i =>
    rw [Reservation.step] at hstep
    split at hstep <;> cases hstep
    · -- The word is still what has been loaded.
      rename_i operand failed regs cur hcall
      obtain ⟨hregs, hcur⟩ := h.calls i _ hcall
      refine ⟨?_, sound_update (h.lose _) fun c hc => nomatch hc⟩
      rw [List.foldl_append, ← h.word, ← hcur cur rfl]
      exact congrArg (fun r => (turn cur r).1) hregs
    · rename_i operand failed regs cur hcall
      refine ⟨h.word, sound_update h.calls fun c hc => ?_⟩
      cases hc
      refine ⟨?_, fun _ hval => nomatch hval⟩
      exact (congrArg (fun r => (turn cur r).2) (h.calls i _ hcall).regs).trans
        (carried_append failed cur operand).symm
  | write val =>
    cases hstep
    refine ⟨?_, h.lose val⟩
    rw [List.foldl_append]
    rfl

/-- The word is what the updates make of it. -/
theorem run_word_eq {P : Shared ι α σ → Act ι α σ → Prop} (hrun : Run (step turn) P (init w) s) :
    s.word = s.log.foldl (Update.apply turn) w :=
  (hrun.invariant (fun hs _ hstep => hs.step hstep) (sound_init w)).word

omit [DecidableEq ι] in
theorem foldl_apply_eq_add [AddMonoid α] (amount : Update α σ → α) {log : List (Update α σ)}
    (hadd : ∀ u ∈ log, ∀ w, u.apply turn w = w + amount u) (w : α) :
    log.foldl (Update.apply turn) w = w + (log.map amount).sum := by
  induction log generalizing w with
  | nil => exact (add_zero w).symm
  | cons u log ih =>
    rw [List.foldl_cons, hadd u List.mem_cons_self,
      ih fun v hv => hadd v (List.mem_cons_of_mem u hv), List.map_cons, List.sum_cons, add_assoc]

/-- If each update adds something to the word, it is the sum in the end. -/
theorem run_word_eq_add [AddMonoid α] {P : Shared ι α σ → Act ι α σ → Prop}
    (amount : Update α σ → α)
    (hrun : Run (step turn) P (init w) s) (hadd : ∀ u ∈ s.log, ∀ w, u.apply turn w = w + amount u) :
    s.word = w + (s.log.map amount).sum := by
  rw [run_word_eq hrun, foldl_apply_eq_add amount hadd]

end Reservation

end DemoOs
