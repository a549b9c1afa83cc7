import Mathlib.Tactic.Ring
import Mathlib.Data.Nat.Digits.Defs

/-!
# Numerals

The numeral of a number in a base is `Nat.toDigits`; `padded b k n` are the last `k` digits of `n`,
with leading zeros. A numeral of more than `k` digits ends with such a group
(`toDigits_mul_pow_add`), and where `k` digits are enough, a group is the numeral behind zeros
(`padded_eq_replicate_append`).

A numeral may be found from its end by dividing as long as something is left (`divisions`).
-/

namespace DemoOs

namespace Numeral

variable {b k n u d : ℕ} {ds : List ℕ}

/-- The last `k` digits, with leading zeros. -/
def padded (b : ℕ) : ℕ → ℕ → List Char
  | 0, _ => []
  | k + 1, n => padded b k (n / b) ++ [Nat.digitChar (n % b)]

@[simp] theorem length_padded : (padded b k n).length = k := by
  induction k generalizing n with
  | zero => rfl
  | succ k ih => rw [padded, List.length_append, ih, List.length_singleton]

/-- The digits of a number of more than `k` digits, the last `k` of them on their own. -/
theorem toDigits_mul_pow_add (hb : 1 < b) (hu : 0 < u) (hn : n < b ^ k) :
    Nat.toDigits b (u * b ^ k + n) = Nat.toDigits b u ++ padded b k n := by
  induction k generalizing n with
  | zero =>
    obtain rfl : n = 0 := Nat.lt_one_iff.1 hn
    rw [padded, List.append_nil, pow_zero, mul_one, add_zero]
  | succ k ih =>
    have hdiv : n / b < b ^ k := Nat.div_lt_of_lt_mul (by rwa [← pow_succ'])
    have hmod : n % b < b := Nat.mod_lt n (by omega)
    have hpos : 0 < u * b ^ k + n / b :=
      Nat.add_pos_left (Nat.mul_pos hu (Nat.pow_pos (by omega))) _
    have hsum : u * b ^ (k + 1) + n = b * (u * b ^ k + n / b) + n % b := by
      have := Nat.div_add_mod n b
      rw [pow_succ]
      linarith
    rw [hsum, ← Nat.toDigits_append_toDigits hb hpos hmod, ih hdiv, Nat.toDigits_of_lt_base hmod,
      padded, List.append_assoc]

/-- A group of digits is the numeral, with zeros in front. -/
theorem padded_eq_replicate_append (hb : 1 < b) (hk : 0 < k) (hn : n < b ^ k) :
    padded b k n = List.replicate (k - (Nat.toDigits b n).length) '0' ++ Nat.toDigits b n := by
  induction k generalizing n with
  | zero => exact absurd hk (Nat.lt_irrefl 0)
  | succ k ih =>
    rw [padded]
    by_cases hlt : n < b
    · -- One digit: all others are zeros.
      rw [Nat.div_eq_of_lt hlt, Nat.mod_eq_of_lt hlt, Nat.toDigits_of_lt_base hlt]
      congr 1
      cases k with
      | zero => rfl
      | succ k =>
        rw [ih k.succ_pos (Nat.pow_pos (by omega)), Nat.toDigits_zero, ← List.replicate_succ']
        rfl
    · have hle : b ≤ n := Nat.le_of_not_lt hlt
      have hk : 0 < k := by
        rcases Nat.eq_zero_or_pos k with rfl | hk
        · rw [zero_add, pow_one] at hn
          exact absurd hn hlt
        · exact hk
      rw [ih hk (Nat.div_lt_of_lt_mul (by rwa [← pow_succ'])), Nat.toDigits_of_base_le hb hle,
        List.length_append, List.length_singleton, Nat.add_sub_add_right, List.append_assoc]

/-- Both together: a numeral ends with the numeral of its last digits, behind zeros. -/
theorem toDigits_mul_pow_add' (hb : 1 < b) (hu : 0 < u) (hk : 0 < k) (hn : n < b ^ k) :
    Nat.toDigits b (u * b ^ k + n) = Nat.toDigits b u ++
      (List.replicate (k - (Nat.toDigits b n).length) '0' ++ Nat.toDigits b n) := by
  rw [toDigits_mul_pow_add hb hu hn, padded_eq_replicate_append hb hk hn]

/-- How many digits there are. -/
theorem length_toDigits (hb : 1 < b) (hlo : b ^ k ≤ n) (hhi : n < b ^ (k + 1)) :
    (Nat.toDigits b n).length = k + 1 := by
  have hle := (Nat.length_toDigits_le_iff hb k.succ_pos).2 hhi
  rcases Nat.eq_zero_or_pos k with rfl | hk
  · have := Nat.length_toDigits_pos (b := b) (n := n)
    omega
  · have hlt := mt (Nat.length_toDigits_le_iff hb hk).1 (Nat.not_lt.2 hlo)
    omega

/-- The digits of a number, found from its end and put in front of `ds`. There is room for so
    many. -/
def divisions (b : ℕ) : ℕ → ℕ → List ℕ → Option (List ℕ)
  | _, 0, ds => some ds
  | 0, _ + 1, _ => none
  | k + 1, n + 1, ds => divisions b k ((n + 1) / b) ((n + 1) % b :: ds)

/-- Where there is room for them, the digits are those of the numeral. -/
theorem divisions_eq (hb : 1 < b) (hn : 0 < n) (hk : n < b ^ k) :
    ∃ ds', divisions b k n ds = some (ds' ++ ds) ∧ ds'.map Nat.digitChar = Nat.toDigits b n ∧
      ∀ d ∈ ds', d < b := by
  induction k generalizing n ds with
  | zero => exact absurd (Nat.lt_one_iff.1 hk) hn.ne'
  | succ k ih =>
    obtain ⟨n, rfl⟩ := Nat.exists_eq_succ_of_ne_zero hn.ne'
    have hmod : (n + 1) % b < b := Nat.mod_lt _ (by omega)
    rw [divisions]
    rcases Nat.eq_zero_or_pos ((n + 1) / b) with hdiv | hdiv
    · have hlt : n + 1 < b := (Nat.div_eq_zero_iff.1 hdiv).resolve_left (by omega)
      refine ⟨[(n + 1) % b], ?_, ?_, by simpa using hmod⟩
      · rw [hdiv]
        cases k <;> rfl
      · rw [Nat.mod_eq_of_lt hlt, Nat.toDigits_of_lt_base hlt]
        rfl
    · have hle : b ≤ n + 1 := (Nat.div_pos_iff.1 hdiv).2
      have hlt : (n + 1) / b < b ^ k := Nat.div_lt_of_lt_mul (by rwa [← pow_succ'])
      obtain ⟨ds', hds, hmap, hall⟩ := @ih ((n + 1) / b) ((n + 1) % b :: ds) hdiv hlt
      refine ⟨ds' ++ [(n + 1) % b], by rw [hds, List.append_assoc]; rfl, ?_, ?_⟩
      · rw [List.map_append, hmap, Nat.toDigits_of_base_le hb hle]
        rfl
      · simpa [or_imp, forall_and] using ⟨hall, hmod⟩

end Numeral

end DemoOs
