import DemoOs.Lib.Reservation
import Mathlib.Data.BitVec

/-!
# Atomic operations

The functions of `Atomic` (`atomic.h`) are loops in assembler: `lwarx` loads the word, an
instruction computes the new one, `stwcx.` stores it, and `bne-` goes back if it has not. All of
them but one leave the operand `%2` alone, and do what their last turn would do alone, however often
the store has failed (`asm_attempts`); several of them at work on a word count exactly
(`increments_counted`).

`add` has its sum in `%2`. A turn that fails leaves it there, and the next one adds to it: what is
stored in the end is too large by all words loaded before (`add_attempts`), and so is the word that
several calls share (`adds_summed`).
-/

namespace DemoOs

namespace Atomic

open Reservation

/-- The operands `%0` and `%2` of the assembler code. -/
structure Regs where
  tmp : BitVec 32
  operand : BitVec 32

/-- A turn with the new word in `%0`. -/
def turn (instr : BitVec 32 → BitVec 32 → BitVec 32) (cur : BitVec 32) (r : Regs) :
    BitVec 32 × Regs :=
  let r := { r with tmp := cur }
  let r := { r with tmp := instr r.tmp r.operand }
  (r.tmp, r)

/-- A turn of `add`, with the new word in `%2`. -/
def addTurn (cur : BitVec 32) (r : Regs) : BitVec 32 × Regs :=
  let r := { r with tmp := cur }
  let r := { r with operand := r.tmp + r.operand }
  (r.operand, r)

/-- The code of a function, with the words loaded and whether they are replaced: what is stored, and
    `%0`, which is returned. It does not matter what `%0` is at first. -/
def asm (turn : BitVec 32 → Regs → BitVec 32 × Regs) (loads : List (BitVec 32 × Bool))
    (operand : BitVec 32) :
    Option (BitVec 32 × BitVec 32) :=
  (retry turn loads ⟨0, operand⟩).map fun (new, r) => (new, r.tmp)

/-- `operator ++`, which has no operand. -/
def increment (loads : List (BitVec 32 × Bool)) : Option (BitVec 32 × BitVec 32) :=
  asm (turn fun tmp _ => tmp + 1) loads 0

/-- `operator --`. -/
def decrement (loads : List (BitVec 32 × Bool)) : Option (BitVec 32 × BitVec 32) :=
  asm (turn fun tmp _ => tmp + -1) loads 0

/-- `operator ++ (int)`. -/
def postIncrement (loads : List (BitVec 32 × Bool)) : Option (BitVec 32 × BitVec 32) :=
  (increment loads).map fun (new, ret) => (new, ret - 1)

/-- `operator -- (int)`. -/
def postDecrement (loads : List (BitVec 32 × Bool)) : Option (BitVec 32 × BitVec 32) :=
  (decrement loads).map fun (new, ret) => (new, ret + 1)

def atomicAnd (loads : List (BitVec 32 × Bool)) (mask : BitVec 32) :
    Option (BitVec 32 × BitVec 32) :=
  asm (turn fun tmp mask => tmp &&& mask) loads mask

def atmoicOr (loads : List (BitVec 32 × Bool)) (mask : BitVec 32) :
    Option (BitVec 32 × BitVec 32) :=
  asm (turn fun tmp mask => tmp ||| mask) loads mask

def add (loads : List (BitVec 32 × Bool)) (val : BitVec 32) : Option (BitVec 32 × BitVec 32) :=
  asm addTurn loads val

variable {instr : BitVec 32 → BitVec 32 → BitVec 32} {val last w : BitVec 32}
    {failed : List (BitVec 32)}

/-! ## The operand left alone -/

/-- What the other functions store does not depend on the turns before the last. -/
theorem turn_attempts (failed : List (BitVec 32)) (last : BitVec 32) (r : Regs) :
    retry (turn instr) (attempts failed last) r = some (turn instr last r) := by
  refine retry_of_keeps (f := Regs.operand) (fun _ _ => rfl) (fun cur r r' h => ?_) failed last r
  cases r
  cases r'
  cases h
  rfl

theorem asm_attempts (failed : List (BitVec 32)) (last operand : BitVec 32) :
    asm (turn instr) (attempts failed last) operand =
      some (instr last operand, instr last operand) := by
  rw [asm, turn_attempts]
  rfl

/-- The postfix operators return the word as it was. -/
theorem postIncrement_attempts (failed : List (BitVec 32)) (last : BitVec 32) :
    postIncrement (attempts failed last) = some (last + 1, last) := by
  rw [postIncrement, increment, asm_attempts, Option.map_some]
  dsimp only
  rw [add_sub_cancel_right]

theorem postDecrement_attempts (failed : List (BitVec 32)) (last : BitVec 32) :
    postDecrement (attempts failed last) = some (last + -1, last) := by
  rw [postDecrement, decrement, asm_attempts, Option.map_some]
  dsimp only
  rw [neg_add_cancel_right]

/-! ## Addition -/

/-- The turns that fail add what they have loaded to the operand. -/
theorem carried_addTurn (failed : List (BitVec 32)) (r : Regs) :
    (carried addTurn failed r).operand = r.operand + failed.sum := by
  induction failed generalizing r with
  | nil => rw [List.sum_nil, add_zero]; rfl
  | cons cur failed ih =>
    have hturn : (addTurn cur r).2.operand = cur + r.operand := rfl
    rw [List.sum_cons, ← add_assoc, add_comm r.operand, ← hturn]
    exact ih _

theorem add_attempts (failed : List (BitVec 32)) (last val : BitVec 32) :
    add (attempts failed last) val = some (last + (val + failed.sum), last) := by
  rw [add, asm, retry_attempts, Option.map_some, ← carried_addTurn failed ⟨0, val⟩]
  rfl

/-- `add` stores the sum of the argument and the word it has loaded last, and returns that word. -/
def AddsOnce (val : BitVec 32) (failed : List (BitVec 32)) (last : BitVec 32) : Prop :=
  add (attempts failed last) val = some (last + val, last)

theorem addsOnce_iff (val : BitVec 32) (failed : List (BitVec 32)) (last : BitVec 32) :
    AddsOnce val failed last ↔ failed.sum = 0 := by
  rw [AddsOnce, add_attempts, Option.some_inj, Prod.mk_inj, and_iff_left rfl, add_right_inj,
    add_eq_left]

/-- The word is 5, and the first store fails: 11 is stored. -/
theorem not_addsOnce : ¬ ∀ val failed last, AddsOnce val failed last := by
  intro h
  have hstored : add (attempts [5] 5) 1 = some (6, 5) := h 1 [5] 5
  revert hstored
  decide

/-! ## Several calls at once -/

variable {ι : Type*} [DecidableEq ι] {s : Shared ι (BitVec 32) Regs}
  {P : Shared ι (BitVec 32) Regs → Act ι (BitVec 32) Regs → Prop}

/-- What an update by `add` adds to the word. -/
def added : Update (BitVec 32) Regs → BitVec 32
  | .done r failed => r.operand + failed.sum
  | .wrote _ => 0

theorem apply_addTurn {u : Update (BitVec 32) Regs} (hu : ∀ val, u ≠ .wrote val) (w : BitVec 32) :
    u.apply addTurn w = w + added u := by
  cases u with
  | done r failed =>
    rw [added, ← carried_addTurn]
    rfl
  | wrote val => exact absurd rfl (hu val)

/-- However the calls of `add` on a word are interleaved, it becomes larger by their arguments and
    by all words that turns have loaded and then not replaced. -/
theorem adds_summed (hrun : Run (step addTurn) P (init w) s) (hlog : ∀ val, .wrote val ∉ s.log) :
    s.word = w + (s.log.map added).sum :=
  run_word_eq_add added hrun fun _ hu => apply_addTurn fun val hval => hlog val (hval ▸ hu)

/-- An update by another function is what it makes of the word, whatever turns have failed
    before. -/
theorem apply_turn (r : Regs) (failed : List (BitVec 32)) (w : BitVec 32) :
    (Update.done r failed).apply (turn instr) w = instr w r.operand := by
  have hdone : (retry (turn instr) (attempts failed w) r).map Prod.fst =
      some ((Update.done r failed).apply (turn instr) w) := apply_done w r failed
  rw [turn_attempts] at hdone
  exact (Option.some_inj.1 hdone).symm

theorem apply_increment {u : Update (BitVec 32) Regs} (hu : ∀ val, u ≠ .wrote val) (w : BitVec 32) :
    u.apply (turn fun tmp _ => tmp + 1) w = w + 1 := by
  cases u with
  | done r failed => exact apply_turn r failed w
  | wrote val => exact absurd rfl (hu val)

/-- The calls of `operator ++` on a word are counted, however they are interleaved. -/
theorem increments_counted (hrun : Run (step (turn fun tmp _ => tmp + 1)) P (init w) s)
    (hlog : ∀ val, .wrote val ∉ s.log) : s.word = w + (s.log.length : BitVec 32) := by
  have hsum := run_word_eq_add (fun _ => 1) hrun fun _ hu => apply_increment fun val hval =>
    hlog val (hval ▸ hu)
  rwa [List.map_const', List.sum_replicate, nsmul_one] at hsum

end Atomic

end DemoOs
