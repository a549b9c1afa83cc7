import Mathlib.Data.Nat.Bitwise
import Mathlib.Tactic.IntervalCases

/-!
# The order of bytes

The words of a file system that was written in the other byte order are swapped when they are read,
and when they are written (`yaffs_endian.c`). Swapping twice changes nothing (`swapU32_swapU32`).
-/

namespace DemoOs

/-- `swap_u32`. -/
def swapU32 (val : BitVec 32) : BitVec 32 :=
  val >>> 24 &&& 0x000000ff#32 ||| val >>> 8 &&& 0x0000ff00#32 ||| val <<< 8 &&& 0x00ff0000#32 |||
    val <<< 24 &&& 0xff000000#32

/-- `yaffs_do_endian_u32`, and `yaffs_do_endian_s32` for a signed word. -/
def doEndianU32 (swapEndian : Bool) (val : BitVec 32) : BitVec 32 :=
  if swapEndian then swapU32 val else val

variable {x : BitVec 32}

theorem getLsbD_swapU32 (x : BitVec 32) {i : ℕ} (hi : i < 32) :
    (swapU32 x).getLsbD i = x.getLsbD (8 * (3 - i / 8) + i % 8) := by
  have hmasks : ∀ i : Fin 32, (0x000000ff#32).getLsbD i = decide (i.val < 8) ∧
      (0x0000ff00#32).getLsbD i = decide (8 ≤ i.val ∧ i.val < 16) ∧
      (0x00ff0000#32).getLsbD i = decide (16 ≤ i.val ∧ i.val < 24) ∧
      (0xff000000#32).getLsbD i = decide (24 ≤ i.val) := by decide +kernel
  obtain ⟨h₀, h₁, h₂, h₃⟩ := hmasks ⟨i, hi⟩
  simp only [swapU32, BitVec.getLsbD_or, BitVec.getLsbD_and, BitVec.getLsbD_ushiftRight,
    BitVec.getLsbD_shiftLeft, h₀, h₁, h₂, h₃]
  -- Each of the four bytes is let through by one of the masks.
  by_cases h8 : i < 8
  · rw [show 8 * (3 - i / 8) + i % 8 = 24 + i by omega]
    simp [h8, show ¬8 ≤ i by omega, show ¬16 ≤ i by omega, show ¬24 ≤ i by omega]
  · by_cases h16 : i < 16
    · rw [show 8 * (3 - i / 8) + i % 8 = 8 + i by omega]
      simp [h8, h16, show 8 ≤ i by omega, show ¬16 ≤ i by omega, show ¬24 ≤ i by omega]
    · by_cases h24 : i < 24
      · rw [show 8 * (3 - i / 8) + i % 8 = i - 8 by omega]
        simp [h8, h16, h24, hi, show 16 ≤ i by omega, show ¬24 ≤ i by omega]
      · rw [show 8 * (3 - i / 8) + i % 8 = i - 24 by omega]
        simp [h8, h16, h24, hi, show 24 ≤ i by omega]

theorem swapU32_swapU32 (x : BitVec 32) : swapU32 (swapU32 x) = x := by
  refine BitVec.eq_of_getLsbD_eq fun i hi => ?_
  rw [getLsbD_swapU32 _ hi, getLsbD_swapU32 _ (by omega)]
  exact congrArg x.getLsbD (by omega)

/-- The mark of an erased chunk is the same in either order. -/
theorem swapU32_eq_ones : swapU32 x = 0xffffffff#32 ↔ x = 0xffffffff#32 := by
  have hones : swapU32 0xffffffff#32 = 0xffffffff#32 := by decide
  refine ⟨fun h => ?_, fun h => h ▸ hones⟩
  rw [← swapU32_swapU32 x, h, hones]

theorem doEndianU32_doEndianU32 (swapEndian : Bool) (x : BitVec 32) :
    doEndianU32 swapEndian (doEndianU32 swapEndian x) = x := by
  cases swapEndian
  · rfl
  · exact swapU32_swapU32 x

end DemoOs
