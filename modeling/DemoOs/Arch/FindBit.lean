import Mathlib.Data.Nat.Basic
import Mathlib.Tactic.IntervalCases

/-!
# Finding bits

`findMostSignificantBit64` (`findfirstbit.cpp`), which counts bits from one, on a processor that
stores the most significant parts of a word first. Of a set with its lowest element singled out, `x
& -x`, it gives the lowest element (`findMostSignificantBit64_lowest`).
-/

namespace DemoOs

def mostSignificantBitTable : List ℕ :=
  [0, 0] ++ List.replicate 2 1 ++ List.replicate 4 2 ++ List.replicate 8 3 ++ List.replicate 16 4 ++
    List.replicate 32 5 ++ List.replicate 64 6 ++ List.replicate 128 7

/-- On a word, by its bytes. -/
def findMostSignificantBit32 (val : BitVec 32) : ℕ :=
  let u8Val (k : ℕ) : ℕ := (val >>> (24 - 8 * k)).toNat % 2 ^ 8
  if val >>> 16 ≠ 0 then
    if u8Val 0 ≠ 0 then mostSignificantBitTable.getD (u8Val 0) 0 + 24 + 1
    else mostSignificantBitTable.getD (u8Val 1) 0 + 16 + 1
  else if u8Val 2 ≠ 0 then mostSignificantBitTable.getD (u8Val 2) 0 + 8 + 1
  else mostSignificantBitTable.getD (u8Val 3) 0 + if val ≠ 0 then 1 else 0

/-- On a double word, by its words. -/
def findMostSignificantBit64 (val : BitVec 64) : ℕ :=
  let high : BitVec 32 := (val >>> 32).setWidth 32
  if high ≠ 0 then findMostSignificantBit32 high + 32
  else findMostSignificantBit32 (val.setWidth 32)

/-- An element is taken out of a set of bits. -/
theorem getLsbD_and_not_twoPow (x : BitVec 64) (i j : ℕ) :
    (x &&& ~~~BitVec.twoPow 64 i).getLsbD j = (x.getLsbD j && decide (j ≠ i)) := by
  rw [BitVec.getLsbD_and, BitVec.getLsbD_not, BitVec.getLsbD_twoPow]
  by_cases hj : j < 64
  · by_cases hij : i = j
    · simp [hij, hj]
    · simp [hij, hj, Ne.symm hij]
  · simp [BitVec.getLsbD_of_ge x j (Nat.le_of_not_lt hj)]

/-- The lowest element of a set of bits. -/
structure IsLowest (x : BitVec 64) (i : ℕ) : Prop where
  lt : i < 64
  mem : x.getLsbD i = true
  first : ∀ j < i, x.getLsbD j = false

variable {x : BitVec 64} {i j : ℕ}

theorem exists_isLowest (h : x ≠ 0) : ∃ i, IsLowest x i :=
  have hmem := BitVec.getLsbD_true_ctz_of_ne_zero h
  ⟨x.ctz.toNat, BitVec.lt_of_getLsbD hmem, hmem, fun _ => BitVec.getLsbD_false_of_lt_ctz⟩

theorem IsLowest.unique (h : IsLowest x i) (h' : IsLowest x j) : i = j := by
  rcases Nat.lt_trichotomy i j with hij | rfl | hij
  · exact absurd h.mem (by rw [h'.first i hij]; decide)
  · rfl
  · exact absurd h'.mem (by rw [h.first j hij]; decide)

theorem IsLowest.mem_right {y : BitVec 64} (h : IsLowest (x &&& y) i) : y.getLsbD i = true := by
  have hmem := h.mem
  rw [BitVec.getLsbD_and, Bool.and_eq_true] at hmem
  exact hmem.2

theorem IsLowest.ne_zero (h : IsLowest x i) : x ≠ 0 := by
  rintro rfl
  exact absurd h.mem (by simp)

/-- The lowest element is singled out by the negative. -/
theorem IsLowest.and_neg (h : IsLowest x i) : x &&& -x = BitVec.twoPow 64 i := by
  refine BitVec.eq_of_getLsbD_eq fun j hj => ?_
  rw [BitVec.getLsbD_and, BitVec.getLsbD_neg, BitVec.getLsbD_twoPow]
  rcases Nat.lt_trichotomy j i with hji | rfl | hij
  · rw [h.first j hji, Bool.false_and, decide_eq_false (Nat.ne_of_gt hji), Bool.and_false]
  · have hnone : ¬ ∃ k < j, x.getLsbD k = true := by
      rintro ⟨k, hk, hmem⟩
      rw [h.first k hk] at hmem
      cases hmem
    simp [h.mem, hj, hnone]
  · have hsome : ∃ k < j, x.getLsbD k = true := ⟨i, hij, h.mem⟩
    simp [hj, hsome, Nat.ne_of_lt hij]

/-- Of a single bit, the function gives the number, from one. -/
theorem findMostSignificantBit64_twoPow :
    ∀ i < 64, findMostSignificantBit64 (BitVec.twoPow 64 i) = i + 1 := by
  decide +kernel

/-- Of the lowest element singled out, the function gives the number, from one. -/
theorem findMostSignificantBit64_lowest (h : IsLowest x i) :
    findMostSignificantBit64 (x &&& -x) = i + 1 := by
  rw [h.and_neg, findMostSignificantBit64_twoPow i h.lt]

end DemoOs
