import DemoOs.Lib.Filling
import DemoOs.Bytes
import DemoOs.Types
import Mathlib.Tactic.IntervalCases

/-!
# Filling bytes

`memset` (`memset.cpp`). From seven bytes on, it stores bytes up to the first word boundary, then
words up to the last one, and then what is left by bytes. The loop of the words compares the pointer
with its end only after a store, and only for equality; there is a word to be stored, as of seven
bytes three at most come before the first boundary (`memset_filled`).

The pointers wrap around at the end of the address space, where a range may end.
-/

namespace DemoOs

open Storage

/-- `(char)c`. -/
def lowByte (c : BitVec 32) : UInt8 := ⟨c.setWidth 8⟩

/-- The byte in all bytes of a word. -/
def bytePattern (c : BitVec 32) : BitVec 32 :=
  let val : BitVec 32 := (c.setWidth 8).setWidth 32
  let val := val ||| val <<< 8
  val ||| val <<< 16

/-- `*d++ = (char)c`. -/
def storeByte (c : BitVec 32) (t : Storage UInt8 × ℕ) : Storage UInt8 × ℕ :=
  (⟨Function.update t.1.mem t.2 (lowByte c), (t.2, 1) :: t.1.stores⟩, word (t.2 + 1))

/-- `*lBufPtr++ = val`. -/
def storeWord (val : BitVec 32) (t : Storage UInt8 × ℕ) : Storage UInt8 × ℕ :=
  (⟨Bytes.setWord t.1.mem t.2 val.toNat, (t.2, 4) :: t.1.stores⟩, word (t.2 + 4))

/-- `while (d & 3)`. -/
def alignLoop (fuel : ℕ) (c : BitVec 32) : Storage UInt8 × ℕ → Option (Storage UInt8 × ℕ) :=
  loop (fun t => t.2 &&& 3 ≠ 0) (storeByte c) fuel

/-- `do … while (lBufPtr != lBufEnd)`. -/
def wordLoop (fuel : ℕ) (c : BitVec 32) (lBufEnd : ℕ) (t : Storage UInt8 × ℕ) :
    Option (Storage UInt8 × ℕ) :=
  loop (fun t => t.2 ≠ lBufEnd) (storeWord (bytePattern c)) fuel (storeWord (bytePattern c) t)

/-- `while (d != end)`. -/
def byteLoop (fuel : ℕ) (c : BitVec 32) (end' : ℕ) : Storage UInt8 × ℕ →
    Option (Storage UInt8 × ℕ) :=
  loop (fun t => t.2 ≠ end') (storeByte c) fuel

/-- `memset`: what it returns, and the memory. -/
def memset (fuel : ℕ) (s : Storage UInt8) (dst : ℕ) (c : BitVec 32) (len : ℕ) :
    Option (ℕ × Storage UInt8) := do
  let end' := word (dst + len)
  let t ← if len ≥ 2 * 4 - 1 then do
      let t ← alignLoop fuel c (s, dst)
      wordLoop fuel c (end' &&& wordNot 3) t
    else some (s, dst)
  let (s, _) ← byteLoop fuel c end' t
  some (dst, s)

variable {c : BitVec 32} {s : Storage UInt8} {D dst len lo hi fuel n : ℕ}

/-! ## Stores -/

theorem storeByte_filled (hD : D < 2 ^ 32) :
    Filled (lowByte c) D (D + 1) s (storeByte c (s, word D)).1 ∧
    (storeByte c (s, word D)).2 = word (D + 1) := by
  rw [storeByte, word_eq hD]
  refine ⟨.of_store (fun a => ?_) rfl (Nat.one_dvd D), rfl⟩
  dsimp only
  rw [Function.update_apply]
  split_ifs <;> first | rfl | omega

/-- All bytes of the pattern are the byte. -/
theorem bytePattern_spec (c : BitVec 32) :
    UInt8.ofNat ((bytePattern c).toNat / 2 ^ 24) = lowByte c ∧
      UInt8.ofNat ((bytePattern c).toNat / 2 ^ 16) = lowByte c ∧
      UInt8.ofNat ((bytePattern c).toNat / 2 ^ 8) = lowByte c ∧
        UInt8.ofNat (bytePattern c).toNat = lowByte c := by
  have hbyte : ∀ b : BitVec 8,
      let val : BitVec 32 := b.setWidth 32
      let val := val ||| val <<< 8
      let val := val ||| val <<< 16
      UInt8.ofNat (val.toNat / 2 ^ 24) = ⟨b⟩ ∧ UInt8.ofNat (val.toNat / 2 ^ 16) = ⟨b⟩ ∧
        UInt8.ofNat (val.toNat / 2 ^ 8) = ⟨b⟩ ∧ UInt8.ofNat val.toNat = ⟨b⟩ := by
    decide +kernel
  exact hbyte (c.setWidth 8)

theorem storeWord_filled (hD : D + 4 ≤ 2 ^ 32) (hdvd : 4 ∣ D) :
    Filled (lowByte c) D (D + 4) s (storeWord (bytePattern c) (s, word D)).1 ∧
      (storeWord (bytePattern c) (s, word D)).2 = word (D + 4) := by
  obtain ⟨h₀, h₁, h₂, h₃⟩ := bytePattern_spec c
  rw [storeWord, word_eq (by omega)]
  refine ⟨.of_store (fun a => ?_) rfl hdvd, rfl⟩
  dsimp only
  rw [Bytes.setWord, h₀, h₁, h₂, h₃]
  split_ifs <;> first | rfl | omega

/-! ## Loops -/

/-- Two places of a range that does not wrap around have the same address only if they are the
    same. -/
theorem word_ne (hlo : lo < hi) (hlt : hi < lo + 2 ^ 32) : word lo ≠ word hi := by
  simp only [word]
  omega

theorem byteLoop_filled (hle : lo ≤ hi) (hhi : hi ≤ 2 ^ 32) (hlt : hi < lo + 2 ^ 32)
    (hfuel : hi - lo < fuel) :
    ∃ s', byteLoop fuel c (word hi) (s, word lo) = some (s', word hi) ∧
      Filled (lowByte c) lo hi s s' := by
  refine loop_filled word (hi - lo) (fun s D _ hD _ => storeByte_filled (by omega))
    (fun s D hlo hD => ?_)
    (fun s => ?_) (by omega) hfuel
  · exact decide_eq_true (word_ne (by omega) (by omega))
  · exact decide_eq_false (not_not_intro rfl)

theorem and_three (a : ℕ) : a &&& 3 = a % 4 := Nat.and_two_pow_sub_one_eq_mod a 2

/-- Up to the first boundary. -/
theorem alignLoop_filled (hhi : hi < 2 ^ 32) (hle : lo ≤ hi) (hdvd : 4 ∣ hi) (hclose : hi < lo + 4)
    (hfuel : 3 < fuel) :
    ∃ s', alignLoop fuel c (s, lo) = some (s', hi) ∧ Filled (lowByte c) lo hi s s' := by
  have hloop : ∃ s', alignLoop fuel c (s, word lo) = some (s', word hi) ∧
      Filled (lowByte c) lo hi s s' := by
    refine loop_filled word (hi - lo) (fun s D _ hD _ => storeByte_filled (by omega))
      (fun s D hlo hD => ?_)
      (fun s => ?_) (by omega) (by omega)
    · dsimp only
      rw [and_three, word_eq (by omega)]
      exact decide_eq_true (by omega)
    · dsimp only
      rw [and_three, word_eq hhi]
      exact decide_eq_false (by omega)
  rwa [word_eq hhi, word_eq (hle.trans_lt hhi)] at hloop

/-- The words from one boundary to another, of which there is one at least. -/
theorem wordLoop_filled (hhi : hi ≤ 2 ^ 32) (hlt : lo < hi) (hlo : 4 ∣ lo) (hdvd : 4 ∣ hi)
    (hnear : hi < lo + 2 ^ 32)
    (hfuel : hi - lo < fuel) :
    ∃ s', wordLoop fuel c (word hi) (s, word lo) = some (s', word hi) ∧
      Filled (lowByte c) lo hi s s' := by
  have hword : ∀ {s D}, D + 4 ≤ hi → 4 ∣ D →
      Filled (lowByte c) D (D + 4) s (storeWord (bytePattern c) (s, word D)).1 ∧
      (storeWord (bytePattern c) (s, word D)).2 = word (D + 4) :=
        fun hle hdvd => storeWord_filled (by omega) hdvd
  obtain ⟨hfirst, hnext⟩ := @hword s lo (by omega) hlo
  -- The first store has been made when the pointer is compared.
  have hrest : ∃ s', loop (fun t => t.2 ≠ word hi) (storeWord (bytePattern c)) fuel
      ((storeWord (bytePattern c) (s, word lo)).1, word (lo + 4)) = some (s', word hi) ∧
        Filled (lowByte c) (lo + 4) hi (storeWord (bytePattern c) (s, word lo)).1 s' := by
    refine loop_filled word ((hi - (lo + 4)) / 4) (fun s D hD hle hdvd => hword hle (by omega))
      (fun s D hD hle => ?_)
      (fun s => ?_) (by omega) (by omega)
    · exact decide_eq_true (word_ne (by omega) (by omega))
    · exact decide_eq_false (not_not_intro rfl)
  obtain ⟨s', hloop, hfilled⟩ := hrest
  rw [← hnext] at hloop
  exact ⟨s', hloop, hfirst.trans hfilled (by omega) (by omega)⟩

/-! ## The whole range -/

/-- The last boundary of the range, as an address. -/
theorem lBufEnd_eq (n : ℕ) : word n &&& wordNot 3 = word (n / 4 * 4) := by
  rw [show (3 : ℕ) = 2 ^ 2 - 1 from rfl, and_wordNot_two_pow (word_lt n) (by decide)]
  simp only [word]
  omega

/-- `memset` returns, and the range is filled by aligned stores that are within it; the loop of the
    words ends with its pointer at the last boundary. -/
theorem memset_filled (s : Storage UInt8) (c : BitVec 32) (hdst : dst < 2 ^ 32)
    (hlen : len < 2 ^ 32)
    (hrange : dst + len ≤ 2 ^ 32) (hfuel : len + 4 ≤ fuel) :
    (∃ s', memset fuel s dst c len = some (dst, s') ∧ Filled (lowByte c) dst (dst + len) s s') ∧
      (len ≥ 2 * 4 - 1 → ∃ t t', alignLoop fuel c (s, dst) = some t ∧
        wordLoop fuel c (word (dst + len) &&& wordNot 3) t = some t' ∧
          t'.2 = word ((dst + len) / 4 * 4)) := by
  by_cases hlong : len ≥ 2 * 4 - 1
  · -- The first boundary, and the last.
    obtain ⟨A, hA⟩ : ∃ A, A = (dst + 3) / 4 * 4 := ⟨_, rfl⟩
    obtain ⟨B, hB⟩ : ∃ B, B = (dst + len) / 4 * 4 := ⟨_, rfl⟩
    -- Three loops: bytes up to `A`, words from `A` to `B`, bytes from `B` on.
    obtain ⟨s₁, halign, h₁⟩ : ∃ s₁, alignLoop fuel c (s, dst) = some (s₁, A) ∧
      Filled (lowByte c) dst A s s₁ :=
      alignLoop_filled (by omega) (by omega) (by omega) (by omega) (by omega)
    obtain ⟨s₂, hword, h₂⟩ : ∃ s₂, wordLoop fuel c (word B) (s₁, word A) = some (s₂, word B) ∧
        Filled (lowByte c) A B s₁ s₂ :=
      wordLoop_filled (by omega) (by omega) (by omega) (by omega) (by omega) (by omega)
    obtain ⟨s₃, hbyte, h₃⟩ :
      ∃ s₃, byteLoop fuel c (word (dst + len)) (s₂, word B) = some (s₃, word (dst + len)) ∧
        Filled (lowByte c) B (dst + len) s₂ s₃ :=
      byteLoop_filled (by omega) (by omega) (by omega) (by omega)
    rw [word_eq (show A < 2 ^ 32 by omega)] at hword
    have hEnd : word (dst + len) &&& wordNot 3 = word B := by
      rw [lBufEnd_eq, hB]
    refine ⟨⟨s₃, ?_, (h₁.trans h₂ (by omega) (by omega)).trans h₃ (by omega) (by omega)⟩,
      fun _ => ⟨(s₁, A), (s₂, word B), halign, ?_, ?_⟩⟩
    · simp only [memset, if_pos hlong, halign, Option.bind_eq_bind, Option.bind_some, hEnd,
        hword, hbyte]
    · rw [hEnd]
      exact hword
    · rw [hB]
  · -- Bytes only.
    obtain ⟨s₁, hbyte, h₁⟩ :
      ∃ s₁, byteLoop fuel c (word (dst + len)) (s, word dst) = some (s₁, word (dst + len)) ∧
        Filled (lowByte c) dst (dst + len) s s₁ :=
      byteLoop_filled (by omega) (by omega) (by omega) (by omega)
    rw [word_eq hdst] at hbyte
    refine ⟨⟨s₁, ?_, h₁⟩, fun h => absurd h hlong⟩
    simp only [memset, if_neg hlong, Option.bind_eq_bind, Option.bind_some, hbyte]

/-- Ten bytes from the address 6: two of them to the first boundary, and two words. -/
theorem memset_filled_ten :
    (∃ s', memset 14 ⟨fun _ => 0, []⟩ 6 0x41 10 = some (6, s') ∧
      Filled (lowByte 0x41) 6 16 ⟨fun _ => 0, []⟩ s') ∧
      (10 ≥ 2 * 4 - 1 → ∃ t t', alignLoop 14 0x41 (⟨fun _ => 0, []⟩, 6) = some t ∧
        wordLoop 14 0x41 (word (6 + 10) &&& wordNot 3) t = some t' ∧
          t'.2 = word ((6 + 10) / 4 * 4)) :=
  memset_filled ⟨fun _ => 0, []⟩ 0x41 (by decide) (by decide) (by decide) (by decide)

end DemoOs
