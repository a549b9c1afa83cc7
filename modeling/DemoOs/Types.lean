import Mathlib.Data.Nat.Bitwise
import Mathlib.Data.Int.Basic

/-!
# Machine words

The basic types of the kernel (`types.h`), on its 32-bit target: `word_t` and `addr_t` are natural
numbers below `2^32`, their arithmetic being reduced modulo `2^32` (`word`, `wordSub`, `wordNot`);
`s32` and `sint` are integers, wrapped into `[-2^31, 2^31)` (`sint`).

`alignDown` and `alignUp` are masks, as in the source; for a power of two they round to a multiple
(`alignDown_two_pow`, `alignUp_two_pow`).

An assertion (`assert`) that fails is a loop without end. Assertions are compiled in only with
`_DEBUG`, which the kernel as it is configured (`rules.mk`) does not define; `mutex.cpp` defines it
for itself. So those of `mutex.cpp` are in the models. Where another one makes a difference, its
model has both settings (`debug`), or is of the calls in which it holds; elsewhere it is left out.
-/

namespace DemoOs

/-- Reduction of an unsigned result to 32 bits. -/
def word (n : ℕ) : ℕ := n % 2 ^ 32

/-- Unsigned subtraction. -/
def wordSub (a b : ℕ) : ℕ := word (a + (2 ^ 32 - b))

/-- Bitwise complement of a word. -/
def wordNot (a : ℕ) : ℕ := 2 ^ 32 - (a + 1)

/-- Reduction of a signed result to 32 bits. -/
def sint (n : ℤ) : ℤ := (n + 2 ^ 31) % 2 ^ 32 - 2 ^ 31

def alignDown (arg align : ℕ) : ℕ := arg &&& wordNot (wordSub align 1)

def alignUp (arg align : ℕ) : ℕ := word (arg + wordSub align 1) &&& wordNot (wordSub align 1)

theorem word_lt (n : ℕ) : word n < 2 ^ 32 := Nat.mod_lt _ (by decide)

theorem word_eq {n : ℕ} (h : n < 2 ^ 32) : word n = n := Nat.mod_eq_of_lt h

theorem wordSub_eq {a b : ℕ} (h : b ≤ a) (ha : a < 2 ^ 32) : wordSub a b = a - b := by
  rw [wordSub, word]
  omega

theorem sint_eq {n : ℤ} (h₁ : -2 ^ 31 ≤ n) (h₂ : n < 2 ^ 31) : sint n = n := by
  rw [sint, Int.emod_eq_of_lt (by omega) (by omega)]
  omega

/-- The error codes (`errno.h`) the functions below return. -/
inductive ErrNo
  | ENONE
  | EPERM
  | ENOENT
  | ENOMEM
  | EFAULT
  | EBUSY
  | EEXIST
  | ENODEV
  | ENOTDIR
  | EISDIR
  | EINVAL
  | ENAMETOOLONG
  | ENOTEMPTY
  deriving DecidableEq

/-! ## Alignment -/

/-- Masking the low `k` bits of a word rounds it down to a multiple of `2^k`. -/
theorem and_wordNot_two_pow {a k : ℕ} (ha : a < 2 ^ 32) (hk : k < 32) :
    a &&& wordNot (2 ^ k - 1) = a / 2 ^ k * 2 ^ k := by
  have hlt : 2 ^ k - 1 < 2 ^ 32 := by
    have := Nat.pow_lt_pow_right (a := 2) (by decide) hk
    omega
  have hshift : a / 2 ^ k * 2 ^ k = (a >>> k) <<< k := by
    rw [Nat.shiftRight_eq_div_pow, Nat.shiftLeft_eq]
  rw [hshift]
  refine Nat.eq_of_testBit_eq fun i => ?_
  rw [Nat.testBit_and, wordNot, Nat.testBit_two_pow_sub_succ hlt, Nat.testBit_two_pow_sub_one,
    Nat.testBit_shiftLeft, Nat.testBit_shiftRight]
  by_cases hik : i < k
  · simp [hik, Nat.not_le.2 hik]
  · have hki : k ≤ i := Nat.le_of_not_lt hik
    rw [Nat.add_sub_cancel' hki]
    by_cases hi : i < 32
    · simp [hik, hki, hi]
    · -- Beyond the 32 bits both sides are zero.
      have : a.testBit i = false := Nat.testBit_lt_two_pow
        (ha.trans_le (Nat.pow_le_pow_right (by decide) (Nat.le_of_not_lt hi)))
      simp [this]

theorem wordSub_two_pow_one {k : ℕ} (hk : k < 32) : wordSub (2 ^ k) 1 = 2 ^ k - 1 :=
  wordSub_eq Nat.one_le_two_pow (Nat.pow_lt_pow_right (by decide) hk)

theorem alignDown_two_pow {a k : ℕ} (ha : a < 2 ^ 32) (hk : k < 32) :
    alignDown a (2 ^ k) = a / 2 ^ k * 2 ^ k := by
  rw [alignDown, wordSub_two_pow_one hk, and_wordNot_two_pow ha hk]

theorem alignUp_two_pow {a k : ℕ} (hk : k < 32) :
    alignUp a (2 ^ k) = word (a + (2 ^ k - 1)) / 2 ^ k * 2 ^ k := by
  rw [alignUp, wordSub_two_pow_one hk, and_wordNot_two_pow (word_lt _) hk]

/-- Without overflow, `alignUp` adds the distance to the next multiple. -/
theorem alignUp_eq_add {a k : ℕ} (hk : k < 32) (ha : a + (2 ^ k - 1) < 2 ^ 32) :
    alignUp a (2 ^ k) = a + (2 ^ k - a % 2 ^ k) % 2 ^ k := by
  have hpos : 0 < 2 ^ k := Nat.two_pow_pos k
  have hmod := Nat.mod_lt a hpos
  have hdiv := Nat.div_add_mod a (2 ^ k)
  rw [alignUp_two_pow hk, word_eq ha]
  rcases Nat.eq_zero_or_pos (a % 2 ^ k) with h₀ | h₀
  · have : (a + (2 ^ k - 1)) / 2 ^ k = a / 2 ^ k := by
      rw [Nat.div_eq_iff hpos, Nat.mul_comm]
      omega
    rw [this, h₀, Nat.sub_zero, Nat.mod_self, Nat.mul_comm]
    omega
  · have : (a + (2 ^ k - 1)) / 2 ^ k = a / 2 ^ k + 1 := by
      rw [Nat.div_eq_iff hpos, Nat.mul_comm, Nat.mul_add]
      omega
    rw [this, Nat.mod_eq_of_lt (by omega), Nat.mul_comm, Nat.mul_add]
    omega

theorem le_alignUp {a k : ℕ} (hk : k < 32) (ha : a + (2 ^ k - 1) < 2 ^ 32) :
    a ≤ alignUp a (2 ^ k) := by
  rw [alignUp_eq_add hk ha]
  exact Nat.le_add_right ..

/-- A multiple of `2 ^ k` is not before the first one. -/
theorem alignUp_le {a r k : ℕ} (hk : k < 32) (har : a ≤ r) (hdvd : 2 ^ k ∣ r) (hr : r < 2 ^ 32) :
    alignUp a (2 ^ k) ≤ r := by
  have hpos : 0 < 2 ^ k := Nat.two_pow_pos k
  obtain ⟨q, rfl⟩ := hdvd
  have hq : q + 1 ≤ 2 ^ (32 - k) := by
    refine Nat.lt_of_mul_lt_mul_left (a := 2 ^ k) ?_
    rwa [← Nat.pow_add, Nat.add_sub_cancel' hk.le]
  have hlt : 2 ^ k * q + 2 ^ k ≤ 2 ^ 32 := by
    calc 2 ^ k * q + 2 ^ k = 2 ^ k * (q + 1) := (Nat.mul_succ ..).symm
      _ ≤ 2 ^ k * 2 ^ (32 - k) := Nat.mul_le_mul_left _ hq
      _ = 2 ^ 32 := by rw [← Nat.pow_add, Nat.add_sub_cancel' hk.le]
  rw [alignUp_two_pow hk, word_eq (by omega), Nat.mul_comm]
  refine Nat.mul_le_mul_left _ (Nat.lt_succ_iff.1 ((Nat.div_lt_iff_lt_mul hpos).2 ?_))
  rw [Nat.succ_mul, Nat.mul_comm q]
  omega

theorem dvd_alignUp (a : ℕ) {k : ℕ} (hk : k < 32) : 2 ^ k ∣ alignUp a (2 ^ k) := by
  rw [alignUp_two_pow hk]
  exact Nat.dvd_mul_left ..

/-- When it overflows, `alignUp` comes back to zero. -/
theorem alignUp_eq_zero {a k : ℕ} (hk : k < 32) (ha : a < 2 ^ 32) (ha' : 2 ^ 32 ≤ a + (2 ^ k - 1)) :
    alignUp a (2 ^ k) = 0 := by
  have hpos : 0 < 2 ^ k := Nat.two_pow_pos k
  have hlt : word (a + (2 ^ k - 1)) < 2 ^ k := by
    have := Nat.pow_lt_pow_right (a := 2) (by decide) hk
    rw [word, Nat.mod_eq_sub_mod ha', Nat.mod_eq_of_lt (by omega)]
    omega
  rw [alignUp_two_pow hk, Nat.div_eq_of_lt hlt, Nat.zero_mul]

end DemoOs
