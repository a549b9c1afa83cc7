import DemoOs.Arch.FindBit
import Mathlib.Data.Nat.Log

/-!
# The highest and the lowest bit

The functions of `findfirstbit.cpp` find the highest and the lowest element of a set of bits, and
count from one; for the empty set they give zero (`bits_found`). They look for the first byte, from
either end, that is not zero, and the bit in it is looked up in a table.

What the tables say of bytes is checked entry by entry (`mostSignificantBitTable_eq`,
`leastSignificantBitTable_spec`). For the highest bit, a byte of a number is the number divided by a
power of two, if there is nothing above it; for the lowest bit, it is a part of the number, if there
is nothing below it.
-/

namespace DemoOs

def leastSignificantBitTable : List ℕ :=
  [0, 0, 1, 0, 2, 0, 1, 0, 3, 0, 1, 0, 2, 0, 1, 0, 4, 0, 1, 0, 2, 0, 1, 0, 3, 0, 1, 0, 2, 0, 1, 0,
    5, 0, 1, 0, 2, 0, 1, 0, 3, 0, 1, 0, 2, 0, 1, 0, 4, 0, 1, 0, 2, 0, 1, 0, 3, 0, 1, 0, 2, 0, 1, 0,
    6, 0, 1, 0, 2, 0, 1, 0, 3, 0, 1, 0, 2, 0, 1, 0, 4, 0, 1, 0, 2, 0, 1, 0, 3, 0, 1, 0, 2, 0, 1, 0,
    5, 0, 1, 0, 2, 0, 1, 0, 3, 0, 1, 0, 2, 0, 1, 0, 4, 0, 1, 0, 2, 0, 1, 0, 3, 0, 1, 0, 2, 0, 1, 0,
    7, 0, 1, 0, 2, 0, 1, 0, 3, 0, 1, 0, 2, 0, 1, 0, 4, 0, 1, 0, 2, 0, 1, 0, 3, 0, 1, 0, 2, 0, 1, 0,
    5, 0, 1, 0, 2, 0, 1, 0, 3, 0, 1, 0, 2, 0, 1, 0, 4, 0, 1, 0, 2, 0, 1, 0, 3, 0, 1, 0, 2, 0, 1, 0,
    6, 0, 1, 0, 2, 0, 1, 0, 3, 0, 1, 0, 2, 0, 1, 0, 4, 0, 1, 0, 2, 0, 1, 0, 3, 0, 1, 0, 2, 0, 1, 0,
    5, 0, 1, 0, 2, 0, 1, 0, 3, 0, 1, 0, 2, 0, 1, 0, 4, 0, 1, 0, 2, 0, 1, 0, 3, 0, 1, 0, 2, 0, 1, 0]

/-- On a word, by its bytes. -/
def findLeastSignificantBit32 (val : BitVec 32) : ℕ :=
  let u8Val (k : ℕ) : ℕ := (val >>> (24 - 8 * k)).toNat % 2 ^ 8
  if val.toNat % 2 ^ 16 ≠ 0 then
    if u8Val 3 ≠ 0 then leastSignificantBitTable.getD (u8Val 3) 0 + 1
    else leastSignificantBitTable.getD (u8Val 2) 0 + 8 + 1
  else if u8Val 1 ≠ 0 then leastSignificantBitTable.getD (u8Val 1) 0 + 16 + 1
  else leastSignificantBitTable.getD (u8Val 0) 0 + if val ≠ 0 then 24 + 1 else 0

/-- On a double word, by its words. -/
def findLeastSignificantBit64 (val : BitVec 64) : ℕ :=
  let low : BitVec 32 := val.setWidth 32
  if low ≠ 0 then findLeastSignificantBit32 low
  else findLeastSignificantBit32 ((val >>> 32).setWidth 32) + if val ≠ 0 then 32 else 0

/-- The highest element of a set of bits. -/
structure IsHighest (x : BitVec 64) (i : ℕ) : Prop where
  mem : x.getLsbD i = true
  last : ∀ j, i < j → x.getLsbD j = false

variable {x : BitVec 64} {i j k n : ℕ}

/-! ## The highest bit -/

/-- An entry of a table, with its index. -/
theorem getD_mem_zipIdx {table : List ℕ} (h : n < table.length) :
    (table.getD n 0, n) ∈ table.zipIdx := by
  rw [List.mk_mem_zipIdx_iff_getElem?, List.getD_eq_getElem?_getD, List.getElem?_eq_getElem h,
    Option.getD_some]

theorem mostSignificantBitTable_eq : ∀ n < 256, n ≠ 0 →
    mostSignificantBitTable.getD n 0 = Nat.log 2 n := by
  have hlength : mostSignificantBitTable.length = 256 := by decide +kernel
  have htable : ∀ e ∈ mostSignificantBitTable.zipIdx, e.2 ≠ 0 → e.1 = Nat.log 2 e.2 := by
    decide +kernel
  exact fun n hn => htable _ (getD_mem_zipIdx (hn.trans_eq hlength.symm))

/-- The highest bit of a number is in its highest byte that is not zero. -/
theorem log_eq_add (h : n / 2 ^ k % 2 ^ 8 ≠ 0) (hlt : n / 2 ^ k < 2 ^ 8) :
    mostSignificantBitTable.getD (n / 2 ^ k % 2 ^ 8) 0 + k = Nat.log 2 n := by
  rw [Nat.mod_eq_of_lt hlt] at h ⊢
  have hle : k ≤ Nat.log 2 n :=
    Nat.le_log_of_pow_le (by decide) (Nat.le_of_not_lt fun hn => h (Nat.div_eq_of_lt hn))
  rw [mostSignificantBitTable_eq _ hlt h, Nat.log_div_base_pow, Nat.sub_add_cancel hle]

theorem toNat_eq_zero_iff {w : ℕ} (val : BitVec w) : val.toNat = 0 ↔ val = 0 := by
  rw [← BitVec.toNat_inj]
  exact Iff.rfl

theorem toNat_shiftRight {w : ℕ} (val : BitVec w) (k : ℕ) :
    (val >>> k).toNat = val.toNat / 2 ^ k := by
  rw [BitVec.toNat_ushiftRight, Nat.shiftRight_eq_div_pow]

theorem findMostSignificantBit32_eq (val : BitVec 32) :
    findMostSignificantBit32 val = if val = 0 then 0 else Nat.log 2 val.toNat + 1 := by
  have hlt := val.isLt
  simp only [findMostSignificantBit32, ← toNat_eq_zero_iff, toNat_shiftRight, ne_eq, Nat.reduceMul,
    Nat.reduceSub]
  generalize val.toNat = n at *
  by_cases hhigh : n / 2 ^ 16 = 0
  · rw [if_neg (not_not_intro hhigh)]
    by_cases h₂ : n / 2 ^ 8 % 2 ^ 8 = 0
    · -- All is in the lowest byte.
      have hn : n < 2 ^ 8 := by omega
      rw [if_neg (not_not_intro h₂), Nat.pow_zero, Nat.div_one, Nat.mod_eq_of_lt hn]
      by_cases h₃ : n = 0
      · subst h₃
        rfl
      · rw [if_pos h₃, if_neg h₃, mostSignificantBitTable_eq n hn h₃]
    · have hn : n ≠ 0 := by omega
      rw [if_pos h₂, log_eq_add h₂ (by omega), if_neg hn]
  · have hn : n ≠ 0 := by omega
    rw [if_pos hhigh, if_neg hn]
    by_cases h₀ : n / 2 ^ 24 % 2 ^ 8 = 0
    · rw [if_neg (not_not_intro h₀), log_eq_add (by omega) (by omega)]
    · rw [if_pos h₀, log_eq_add h₀ (by omega)]

theorem findMostSignificantBit64_eq (val : BitVec 64) :
    findMostSignificantBit64 val = if val = 0 then 0 else Nat.log 2 val.toNat + 1 := by
  have hlt := val.isLt
  simp only [findMostSignificantBit64, findMostSignificantBit32_eq, ← toNat_eq_zero_iff,
    BitVec.toNat_setWidth, toNat_shiftRight, ne_eq]
  generalize val.toNat = n at *
  have hmod : n / 2 ^ 32 % 2 ^ 32 = n / 2 ^ 32 := Nat.mod_eq_of_lt (by omega)
  rw [hmod]
  by_cases hhigh : n / 2 ^ 32 = 0
  · rw [if_neg (not_not_intro hhigh), Nat.mod_eq_of_lt (by omega)]
  · have hle : 32 ≤ Nat.log 2 n := Nat.le_log_of_pow_le (by decide) (by omega)
    have hn : n ≠ 0 := by omega
    rw [if_pos hhigh, if_neg hhigh, if_neg hn, Nat.log_div_base_pow]
    omega

theorem isHighest_log (h : x ≠ 0) : IsHighest x (Nat.log 2 x.toNat) := by
  have hne : x.toNat ≠ 0 := mt (toNat_eq_zero_iff x).1 h
  refine ⟨?_, fun j hj => ?_⟩
  · rw [BitVec.getLsbD, ← Nat.log2_eq_log_two, Nat.testBit_log2 hne]
  · rw [BitVec.getLsbD]
    exact Nat.testBit_lt_two_pow (Nat.lt_pow_of_log_lt (by decide) hj)

/-! ## The lowest bit -/

/-- The lowest bit of a number. -/
def IsLowestBit (n i : ℕ) : Prop := n.testBit i = true ∧ ∀ j < i, n.testBit j = false

theorem leastSignificantBitTable_spec : ∀ n < 256, n ≠ 0 →
    IsLowestBit n (leastSignificantBitTable.getD n 0) := by
  have hlength : leastSignificantBitTable.length = 256 := by decide +kernel
  have htable : ∀ e ∈ leastSignificantBitTable.zipIdx, e.2 ≠ 0 →
      e.2.testBit e.1 = true ∧ ∀ j < e.1, e.2.testBit j = false := by
    decide +kernel
  exact fun n hn => htable _ (getD_mem_zipIdx (hn.trans_eq hlength.symm))

/-- The lowest bit of a number is in its lowest part that is not zero. -/
theorem IsLowestBit.of_part {m : ℕ} (h : IsLowestBit (n / 2 ^ k % 2 ^ m) i) (hlow : n % 2 ^ k = 0) :
    IsLowestBit n (i + k) := by
  have hbit : ∀ j, (n / 2 ^ k % 2 ^ m).testBit j = (decide (j < m) && n.testBit (j + k)) :=
    fun j => by
    rw [Nat.testBit_mod_two_pow, Nat.testBit_div_two_pow]
  obtain ⟨hi, hfirst⟩ := h
  rw [hbit, Bool.and_eq_true, decide_eq_true_iff] at hi
  refine ⟨hi.2, fun j hj => ?_⟩
  rcases Nat.lt_or_ge j k with hjk | hkj
  · have hmod := Nat.testBit_mod_two_pow n k j
    rw [hlow, Nat.zero_testBit, decide_eq_true hjk, Bool.true_and] at hmod
    exact hmod.symm
  · have hlt := hfirst (j - k) (by omega)
    rw [hbit, Nat.sub_add_cancel hkj, decide_eq_true (by omega), Bool.true_and] at hlt
    exact hlt

theorem IsLowestBit.of_byte (h : n / 2 ^ k % 2 ^ 8 ≠ 0) (hlow : n % 2 ^ k = 0) :
    IsLowestBit n (leastSignificantBitTable.getD (n / 2 ^ k % 2 ^ 8) 0 + k) :=
  IsLowestBit.of_part (m := 8) (leastSignificantBitTable_spec _ (Nat.mod_lt _ (by decide)) h) hlow

theorem findLeastSignificantBit32_spec {val : BitVec 32} (h : val ≠ 0) :
    ∃ i, IsLowestBit val.toNat i ∧ findLeastSignificantBit32 val = i + 1 := by
  have hlt := val.isLt
  simp only [findLeastSignificantBit32, ← toNat_eq_zero_iff, toNat_shiftRight, ne_eq, Nat.reduceMul,
    Nat.reduceSub] at h ⊢
  generalize val.toNat = n at *
  by_cases hlow : n % 2 ^ 16 = 0
  · rw [if_neg (not_not_intro hlow)]
    by_cases h₁ : n / 2 ^ 16 % 2 ^ 8 = 0
    · have h₀ : n / 2 ^ 24 % 2 ^ 8 ≠ 0 := by omega
      rw [if_neg (not_not_intro h₁), if_pos h]
      exact ⟨_, .of_byte h₀ (by omega), rfl⟩
    · rw [if_pos h₁]
      exact ⟨_, .of_byte h₁ hlow, rfl⟩
  · rw [if_pos hlow]
    by_cases h₃ : n / 2 ^ 0 % 2 ^ 8 = 0
    · have h₂ : n / 2 ^ 8 % 2 ^ 8 ≠ 0 := by omega
      rw [if_neg (not_not_intro h₃)]
      exact ⟨_, .of_byte h₂ (by omega), rfl⟩
    · rw [if_pos h₃]
      exact ⟨_, .of_byte h₃ (Nat.mod_one n), rfl⟩

theorem findLeastSignificantBit64_spec {val : BitVec 64} (h : val ≠ 0) :
    ∃ i, IsLowestBit val.toNat i ∧ findLeastSignificantBit64 val = i + 1 := by
  have hlt := val.isLt
  have hhigh : ((val >>> 32).setWidth 32 : BitVec 32).toNat = val.toNat / 2 ^ 32 % 2 ^ 32 := by
    rw [BitVec.toNat_setWidth, toNat_shiftRight]
  have hlow : (val.setWidth 32 : BitVec 32).toNat = val.toNat / 2 ^ 0 % 2 ^ 32 := by
    rw [BitVec.toNat_setWidth, Nat.pow_zero, Nat.div_one]
  have hne := mt (toNat_eq_zero_iff val).1 h
  dsimp only [findLeastSignificantBit64]
  by_cases hzero : (val.setWidth 32 : BitVec 32) = 0
  · have hzero' := hlow ▸ (toNat_eq_zero_iff _).2 hzero
    have hne' : ((val >>> 32).setWidth 32 : BitVec 32) ≠ 0 := by
      rw [Ne, ← toNat_eq_zero_iff, hhigh]
      omega
    obtain ⟨i, hi, hfind⟩ := findLeastSignificantBit32_spec hne'
    rw [hhigh] at hi
    rw [if_neg (not_not_intro hzero), if_pos h, hfind]
    exact ⟨i + 32, hi.of_part (by omega), Nat.add_right_comm i 1 32⟩
  · obtain ⟨i, hi, hfind⟩ := findLeastSignificantBit32_spec hzero
    rw [hlow] at hi
    refine ⟨i, hi.of_part (Nat.mod_one _), ?_⟩
    rw [← hfind]
    exact if_pos hzero

/-! ## Double words -/

theorem IsLowestBit.isLowest (h : IsLowestBit x.toNat i) : IsLowest x i where
  lt := BitVec.lt_of_getLsbD h.1
  mem := h.1
  first := h.2

/-- The highest and the lowest element are found, and the lowest one, singled out, is found from
    both ends. -/
theorem bits_found (v : BitVec 64) :
    (v = 0 → findMostSignificantBit64 v = 0 ∧ findLeastSignificantBit64 v = 0) ∧
      (v ≠ 0 → (∃ i, IsHighest v i ∧ findMostSignificantBit64 v = i + 1) ∧
        ∃ i, IsLowest v i ∧ findLeastSignificantBit64 v = i + 1) ∧
      findMostSignificantBit64 (v &&& -v) = findLeastSignificantBit64 v := by
  by_cases hv : v = 0
  · subst hv
    exact ⟨fun _ => ⟨rfl, rfl⟩, fun h => absurd rfl h, rfl⟩
  · obtain ⟨i, hi, hfind⟩ := findLeastSignificantBit64_spec hv
    refine ⟨fun h => absurd h hv, fun _ => ⟨⟨_, isHighest_log hv, ?_⟩, i, hi.isLowest, hfind⟩, ?_⟩
    · rw [findMostSignificantBit64_eq, if_neg hv]
    · rw [findMostSignificantBit64_lowest hi.isLowest, hfind]

end DemoOs
