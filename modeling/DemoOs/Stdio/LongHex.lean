import DemoOs.Stdio.Printk

/-!
# Long hexadecimal numbers

`print_ullong` prints the two words of a number one after the other, the lower one behind zeros. The
loop that puts the zeros is left after six of them, and the lower word has a digit at least: where
it needs seven zeros, there is one too few (`print_ullong_emits_iff`).
-/

namespace DemoOs

namespace Printk

variable {file file' : SFile} {l text text' : List UInt8} {lower m n v : ℕ} {p : Print}

/-- The zeros that are put before the lower word. -/
def zeros (lower : ℕ) : List UInt8 :=
  List.replicate (min 6 (8 - (Nat.toDigits 16 lower).length)) (ch '0')

/-- What is printed. -/
def ullongText (v : ℕ) : List UInt8 :=
  if v < 2 ^ 32 then numeral 16 v
  else numeral 16 (v / 2 ^ 32) ++ (zeros (v % 2 ^ 32) ++ numeral 16 (v % 2 ^ 32))

theorem fifteen_shiftLeft_and (k n : ℕ) : 15 <<< k &&& n = ((n >>> k) % 16) <<< k := by
  refine Nat.eq_of_testBit_eq fun i => ?_
  have h15 : (15 : ℕ) = 2 ^ 4 - 1 := rfl
  have h16 : (16 : ℕ) = 2 ^ 4 := rfl
  rw [Nat.testBit_and, Nat.testBit_shiftLeft, Nat.testBit_shiftLeft, h15,
    Nat.testBit_two_pow_sub_one, h16, Nat.testBit_mod_two_pow, Nat.testBit_shiftRight]
  by_cases hk : k ≤ i
  · simp [hk, Nat.add_sub_cancel' hk]
  · simp [hk]

/-- The mask of a digit is clear of a number just if the number has no such digit, when it has none
    before it. -/
theorem mask_and_eq_zero_iff (hn : n < 16 ^ (m + 1)) : 15 * 16 ^ m &&& n = 0 ↔ n < 16 ^ m := by
  have hpow : (16 : ℕ) ^ m = 2 ^ (4 * m) := by rw [Nat.pow_mul]
  have hdiv : n / 16 ^ m < 16 := Nat.div_lt_of_lt_mul (by rwa [← Nat.pow_succ])
  have hpos : 0 < 16 ^ m := Nat.pow_pos (by decide)
  have hshift : 15 * 16 ^ m = 15 <<< (4 * m) := by rw [Nat.shiftLeft_eq, hpow]
  rw [hshift, fifteen_shiftLeft_and, Nat.shiftRight_eq_div_pow, ← hpow, Nat.mod_eq_of_lt hdiv,
    Nat.shiftLeft_eq, Nat.mul_eq_zero, Nat.div_eq_zero_iff]
  have hne : 2 ^ (4 * m) ≠ 0 := by positivity
  omega

theorem mask_shiftRight (m : ℕ) : (15 * 16 ^ (m + 1)) >>> 4 = 15 * 16 ^ m := by
  rw [Nat.shiftRight_eq_div_pow, Nat.pow_succ, ← Nat.mul_assoc]
  exact Nat.mul_div_cancel _ (by decide)

/-- The loop puts a zero for every digit the word lacks, but `n` of them at most. -/
theorem padLoop_emits (hn : lower < 16 ^ (n + 2)) : Emits (padLoop lower n (15 * 16 ^ (n + 1)))
    (List.replicate (min n (n + 2 - (Nat.toDigits 16 lower).length)) (ch '0')) := by
  induction n with
  | zero =>
    intro file l h
    rw [Nat.zero_min, List.replicate_zero, List.append_nil]
    exact ⟨file, rfl, h⟩
  | succ n ih =>
    intro file l h
    have hmask := mask_and_eq_zero_iff hn
    rw [padLoop, mask_shiftRight]
    by_cases hlt : lower < 16 ^ (n + 2)
    · have hlen := (Nat.length_toDigits_le_iff (b := 16) (by decide) (n + 1).succ_pos).2 hlt
      obtain ⟨file₁, hput, h₁⟩ := h.my_putc (c := ch '0') (by decide)
      obtain ⟨file', hloop, h'⟩ := ih hlt file₁ _ h₁
      have hmin : min (n + 1) (n + 1 + 2 - (Nat.toDigits 16 lower).length) =
          min n (n + 2 - (Nat.toDigits 16 lower).length) + 1 := by omega
      refine ⟨file', ?_, ?_⟩
      · simp only [if_pos (hmask.2 hlt), hput, hloop, Option.bind_eq_bind, Option.bind_some]
        rw [word_add, hmin, List.length_replicate, List.length_replicate, Nat.add_comm]
      · rw [hmin, List.replicate_succ, List.append_cons]
        exact h'
    · have hlen := Numeral.length_toDigits (b := 16) (by decide) (Nat.le_of_not_lt hlt) hn
      refine ⟨file, ?_, ?_⟩
      · rw [if_neg (mt hmask.1 hlt), hlen, Nat.sub_self, Nat.min_zero]
        rfl
      · rwa [hlen, Nat.sub_self, Nat.min_zero, List.replicate_zero, List.append_nil]

theorem print_ullong_emits (hv : v < 2 ^ 64) : Emits (print_ullong v 16) (ullongText v) := by
  have hupper : v >>> 32 = v / 2 ^ 32 := Nat.shiftRight_eq_div_pow v 32
  intro file l h
  rw [print_ullong, if_neg (by decide), ullongText]
  dsimp only
  rw [hupper]
  by_cases hlt : v < 2 ^ 32
  · have hdiv : ¬v / 2 ^ 32 > 0 := by omega
    rw [if_neg hdiv, if_pos hlt, word_eq hlt]
    exact print_ulong_emits hlt (.inr rfl) file l h
  · have hdiv : v / 2 ^ 32 > 0 := by omega
    have hdivlt : v / 2 ^ 32 < 2 ^ 32 := by omega
    have hlower : word v < 16 ^ (6 + 2) := word_lt v
    rw [if_pos hdiv, if_neg hlt, ← word]
    obtain ⟨file₁, hup, h₁⟩ := print_ulong_emits hdivlt (.inr rfl) file l h
    obtain ⟨file₂, hpad, h₂⟩ := padLoop_emits hlower file₁ _ h₁
    obtain ⟨file₃, hlow, h₃⟩ := print_ulong_emits (word_lt v) (.inr rfl) file₂ _ h₂
    have hsum : ∀ a b c, word (word (word a + word b) + word c) = word (a + (b + c)) :=
      fun a b c => by
      rw [word_add_word a b, word_add_word, Nat.add_assoc]
    have hmask : 0xF0000000 = 15 * 16 ^ (6 + 1) := rfl
    refine ⟨file₃, ?_, by rwa [List.append_assoc, List.append_assoc] at h₃⟩
    simp only [hmask, hup, hpad, hlow, Option.bind_eq_bind, Option.bind_some]
    rw [hsum, zeros, List.length_append, List.length_append]

/-- A file nothing has been put in. -/
def emptyFile : SFile := ⟨fun _ => 0, 0, []⟩

theorem staged_emptyFile : Staged emptyFile [] where
  pos_lt := by decide
  dvd := by decide
  eq := rfl
  ne_zero := List.not_mem_nil

/-- A function emits one text only. -/
theorem Emits.unique (h : Emits p text) (h' : Emits p text') : text = text' := by
  obtain ⟨file, hp, hs⟩ := h emptyFile [] staged_emptyFile
  obtain ⟨file', hp', hs'⟩ := h' emptyFile [] staged_emptyFile
  obtain rfl := (Prod.mk.inj (Option.some.inj (hp.symm.trans hp'))).2
  exact hs.eq.symm.trans hs'.eq

/-- Where the lower word has two digits, there are enough zeros. -/
theorem ullongText_eq_iff (hv : v < 2 ^ 64) :
    ullongText v = numeral 16 v ↔ v < 2 ^ 32 ∨ 16 ≤ v % 2 ^ 32 := by
  rw [ullongText]
  by_cases hlt : v < 2 ^ 32
  · rw [if_pos hlt]
    exact iff_of_true rfl (.inl hlt)
  · rw [if_neg hlt, or_iff_right hlt]
    have hupper : 0 < v / 2 ^ 32 := by omega
    have hlower : v % 2 ^ 32 < 16 ^ 8 := Nat.mod_lt v (by decide)
    have hpos := Nat.length_toDigits_pos (b := 16) (n := v % 2 ^ 32)
    -- The numeral of `v` has as many zeros as the lower word lacks digits.
    have hnumeral : numeral 16 v = numeral 16 (v / 2 ^ 32) ++
        (List.replicate (8 - (Nat.toDigits 16 (v % 2 ^ 32)).length) (ch '0') ++
          numeral 16 (v % 2 ^ 32)) := by
      have hv : v / 2 ^ 32 * 16 ^ 8 + v % 2 ^ 32 = v := by omega
      have h := Numeral.toDigits_mul_pow_add' (b := 16) (by decide) hupper (by decide) hlower
      rw [hv] at h
      rw [numeral, h, List.map_append, List.map_append, List.map_replicate]
      rfl
    rw [hnumeral, List.append_cancel_left_eq, List.append_cancel_right_eq, zeros,
      List.replicate_inj, and_iff_left (.inr rfl)]
    have hlen : (Nat.toDigits 16 (v % 2 ^ 32)).length ≤ 1 ↔ v % 2 ^ 32 < 16 ^ 1 :=
      Nat.length_toDigits_le_iff (by decide) (by decide)
    rw [pow_one] at hlen
    omega

/-- A long number is printed as its hexadecimal numeral, the digits being counted, just if it is a
    word or its lower word is 16 at least. -/
theorem print_ullong_emits_iff (v : BitVec 64) :
    Emits (print_ullong v.toNat 16) (numeral 16 v.toNat) ↔
      v.toNat < 2 ^ 32 ∨ 16 ≤ v.toNat % 2 ^ 32 := by
  rw [← ullongText_eq_iff v.isLt]
  constructor
  · exact fun h => (print_ullong_emits v.isLt).unique h
  · exact fun h => h ▸ print_ullong_emits v.isLt

/-- `2^32` is printed as `2^28` is. -/
theorem not_emits_two_pow : ¬Emits (print_ullong (2 ^ 32) 16) (numeral 16 (2 ^ 32)) ∧
    Emits (print_ullong (2 ^ 32) 16) (numeral 16 (2 ^ 28)) := by
  have h : Emits (print_ullong (2 ^ 32) 16) (numeral 16 (2 ^ 28)) :=
    print_ullong_emits (v := 2 ^ 32) (by decide)
  exact ⟨fun h' => absurd (h.unique h') (by decide), h⟩

end Printk

end DemoOs
