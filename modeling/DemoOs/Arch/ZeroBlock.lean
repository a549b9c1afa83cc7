import DemoOs.Libc.Memset

/-!
# Clearing memory

`zero_block` (`string.cpp` of the architecture). It stores bytes up to the first word boundary and
words up to the first cache line, clears the lines there are (`cacheZeroBlock`), and comes back to
words and then bytes for what is left: the range is one chain of loops, which two jumps enter where
there is no word, or no line, to be stored (`zero_block_filled`). The end is the last address, not
the one behind it, and its byte is stored behind the last loop.
-/

namespace DemoOs

open Storage

def POWERPC_CACHE_LINE_SIZE : ℕ := 32

/-- `cacheZeroBlock(start)`, which is `dcbz`, and the step of its loop. -/
def zeroLine (t : Storage UInt8 × ℕ) : Storage UInt8 × ℕ :=
  let line := t.2 / POWERPC_CACHE_LINE_SIZE * POWERPC_CACHE_LINE_SIZE
  (⟨fun a => if line ≤ a ∧ a < line + POWERPC_CACHE_LINE_SIZE then 0 else t.1.mem a,
    (t.2, POWERPC_CACHE_LINE_SIZE) :: t.1.stores⟩, word (t.2 + POWERPC_CACHE_LINE_SIZE))

/-- `for(; start < tmp; …)`. -/
def zeroLoop (fuel : ℕ) (store : Storage UInt8 × ℕ → Storage UInt8 × ℕ) (tmp : ℕ) :
    Storage UInt8 × ℕ → Option (Storage UInt8 × ℕ) :=
  loop (fun t => t.2 < tmp) store fuel

/-- From `byte1` on. -/
def zeroByte1 (fuel end' : ℕ) (t : Storage UInt8 × ℕ) : Option (Storage UInt8) := do
  let t ← zeroLoop fuel (storeByte 0) end' t
  some (storeByte 0 t).1

/-- From `word4` on. -/
def zeroWord4 (fuel end' : ℕ) (t : Storage UInt8 × ℕ) : Option (Storage UInt8) := do
  let t ← zeroLoop fuel (storeWord 0) (alignDown end' 4) t
  zeroByte1 fuel end' t

def zero_block (fuel : ℕ) (s : Storage UInt8) (dst size : ℕ) : Option (Storage UInt8) :=
  let end' := word (dst + wordSub size 1)
  let tmp := alignUp dst 4
  if tmp ≥ end' then zeroByte1 fuel end' (s, dst)
  else do
    let t ← zeroLoop fuel (storeByte 0) tmp (s, dst)
    let tmp := alignUp t.2 POWERPC_CACHE_LINE_SIZE
    if tmp ≥ end' then zeroWord4 fuel end' t
    else do
      let t ← zeroLoop fuel (storeWord 0) tmp t
      let t ← zeroLoop fuel zeroLine (alignDown end' POWERPC_CACHE_LINE_SIZE) t
      zeroWord4 fuel end' t

variable {s : Storage UInt8} {D dst size lo hi last k fuel : ℕ}

/-! ## Stores and loops -/

/-- A store of `k` places at a multiple of `k`, and the step behind it. -/
def Clears (k : ℕ) (store : Storage UInt8 × ℕ → Storage UInt8 × ℕ) : Prop :=
  ∀ s D, D + k < 2 ^ 32 → k ∣ D → Filled 0 D (D + k) s (store (s, D)).1 ∧ (store (s, D)).2 = D + k

theorem clears_storeByte : Clears 1 (storeByte 0) := fun s D hD _ => by
  have h := storeByte_filled (c := 0) (s := s) (show D < 2 ^ 32 by omega)
  rwa [word_eq (by omega), word_eq hD] at h

theorem clears_storeWord : Clears 4 (storeWord 0) := fun s D hD hdvd => by
  have h := storeWord_filled (c := 0) (s := s) (show D + 4 ≤ 2 ^ 32 by omega) hdvd
  rwa [word_eq (by omega), word_eq hD] at h

theorem clears_zeroLine : Clears POWERPC_CACHE_LINE_SIZE zeroLine := fun s D hD hdvd => by
  rw [zeroLine, word_eq hD]
  dsimp only
  rw [Nat.div_mul_cancel hdvd]
  exact ⟨.of_store (fun a => rfl) rfl hdvd, rfl⟩

/-- The loop from one multiple of `k` to another. -/
theorem zeroLoop_filled {store : Storage UInt8 × ℕ → Storage UInt8 × ℕ} (hstore : Clears k store)
    (hk : 0 < k)
    (hle : lo ≤ hi) (hhi : hi < 2 ^ 32) (hlo : k ∣ lo) (hdvd : k ∣ hi) (hfuel : hi - lo < fuel) :
    ∃ s', zeroLoop fuel store hi (s, lo) = some (s', hi) ∧ Filled 0 lo hi s s' := by
  obtain ⟨n, hn⟩ : k ∣ hi - lo := Nat.dvd_sub hdvd hlo
  have hturns : n ≤ hi - lo := by
    rw [hn]
    exact Nat.le_mul_of_pos_left n hk
  refine loop_filled (k := k) id n (fun s D hD hle hfrom => ?_) (fun s D _ hD => ?_)
    (fun s => ?_) ?_ (by omega)
  · -- What the loop has gone on by is a multiple of `k` as well.
    have hD' : k ∣ D := by
      rw [← Nat.add_sub_cancel' hD]
      exact Nat.dvd_add hlo hfrom
    exact hstore s D (by omega) hD'
  · exact decide_eq_true (by simp only [id]; omega)
  · exact decide_eq_false (Nat.lt_irrefl hi)
  · rw [Nat.mul_comm, ← hn, Nat.add_sub_cancel' hle]

/-- From `byte1` on, the bytes up to the last one are cleared. -/
theorem zeroByte1_filled (hle : lo ≤ last) (hlast : last + 1 < 2 ^ 32) (hfuel : last - lo < fuel) :
    ∃ s', zeroByte1 fuel last (s, lo) = some s' ∧ Filled 0 lo (last + 1) s s' := by
  obtain ⟨s₁, hloop, h₁⟩ : ∃ s₁, zeroLoop fuel (storeByte 0) last (s, lo) = some (s₁, last) ∧
    Filled 0 lo last s s₁ :=
    zeroLoop_filled clears_storeByte Nat.one_pos hle (by omega) (Nat.one_dvd _)
      (Nat.one_dvd _) hfuel
  have hend := (clears_storeByte s₁ last hlast (Nat.one_dvd last)).1
  refine ⟨_, ?_, h₁.trans hend hle (Nat.le_succ last)⟩
  simp only [zeroByte1, hloop, Option.bind_eq_bind, Option.bind_some]

theorem alignUp_of_lt {a k : ℕ} (hk : k < 32) (ha : a + (2 ^ k - 1) < 2 ^ 32) :
    alignUp a (2 ^ k) = (a + (2 ^ k - 1)) / 2 ^ k * 2 ^ k := by
  rw [alignUp_two_pow hk, word_eq ha]

theorem alignUp_four {a : ℕ} (ha : a + 3 < 2 ^ 32) : alignUp a 4 = (a + 3) / 4 * 4 :=
  alignUp_of_lt (k := 2) (by decide) ha

theorem alignUp_line {a : ℕ} (ha : a + 31 < 2 ^ 32) :
    alignUp a POWERPC_CACHE_LINE_SIZE = (a + 31) / 32 * 32 :=
  alignUp_of_lt (k := 5) (by decide) ha

theorem alignDown_line {a : ℕ} (ha : a < 2 ^ 32) :
    alignDown a POWERPC_CACHE_LINE_SIZE = a / 32 * 32 :=
  alignDown_two_pow (k := 5) ha (by decide)

theorem alignDown_four {a : ℕ} (ha : a < 2 ^ 32) : alignDown a 4 = a / 4 * 4 :=
  alignDown_two_pow (k := 2) ha (by decide)

/-- From `word4` on, the words up to the last boundary, and the bytes. -/
theorem zeroWord4_filled (hle : lo ≤ last) (hlo : 4 ∣ lo) (hlast : last + 1 < 2 ^ 32)
    (hfuel : last - lo < fuel) :
    ∃ s', zeroWord4 fuel last (s, lo) = some s' ∧ Filled 0 lo (last + 1) s s' := by
  obtain ⟨A, hA⟩ : ∃ A, A = last / 4 * 4 := ⟨_, rfl⟩
  obtain ⟨s₁, hwords, h₁⟩ : ∃ s₁, zeroLoop fuel (storeWord 0) A (s, lo) = some (s₁, A) ∧
    Filled 0 lo A s s₁ :=
    zeroLoop_filled clears_storeWord (by decide) (by omega) (by omega) hlo (by omega) (by omega)
  obtain ⟨s₂, hbytes, h₂⟩ : ∃ s₂, zeroByte1 fuel last (s₁, A) = some s₂ ∧
    Filled 0 A (last + 1) s₁ s₂ :=
    zeroByte1_filled (by omega) hlast (by omega)
  refine ⟨s₂, ?_, h₁.trans h₂ (by omega) (by omega)⟩
  simp only [zeroWord4, alignDown_four (show last < 2 ^ 32 by omega), ← hA, hwords,
    Option.bind_eq_bind, Option.bind_some, hbytes]

/-! ## The whole range -/

/-- `zero_block` returns, and the range is cleared by aligned stores that are within it. -/
theorem zero_block_filled (s : Storage UInt8) (hsize : 1 ≤ size)
    (hrange : dst + size ≤ 2 ^ 32 - POWERPC_CACHE_LINE_SIZE) (hfuel : size ≤ fuel) :
    ∃ s', zero_block fuel s dst size = some s' ∧ Filled 0 dst (dst + size) s s' := by
  rw [POWERPC_CACHE_LINE_SIZE] at hrange
  obtain ⟨last, hlast⟩ : ∃ last, last = dst + (size - 1) := ⟨_, rfl⟩
  have hend : word (dst + wordSub size 1) = last := by
    rw [wordSub_eq hsize (by omega), ← hlast, word_eq (by omega)]
  rw [show dst + size = last + 1 by omega, zero_block, hend]
  -- The first word boundary, if it is within the range.
  obtain ⟨A, hA⟩ : ∃ A, A = (dst + 3) / 4 * 4 := ⟨_, rfl⟩
  simp only [alignUp_four (show dst + 3 < 2 ^ 32 by omega), ← hA]
  split_ifs with hword
  · exact zeroByte1_filled (by omega) (by omega) (by omega)
  obtain ⟨s₁, hbytes, h₁⟩ : ∃ s₁, zeroLoop fuel (storeByte 0) A (s, dst) = some (s₁, A) ∧
    Filled 0 dst A s s₁ :=
    zeroLoop_filled clears_storeByte Nat.one_pos (by omega) (by omega) (Nat.one_dvd _)
      (Nat.one_dvd _) (by omega)
  simp only [hbytes, Option.bind_eq_bind, Option.bind_some]
  -- The first line, if it begins within the range.
  obtain ⟨B, hB⟩ : ∃ B, B = (A + 31) / 32 * 32 := ⟨_, rfl⟩
  simp only [alignUp_line (show A + 31 < 2 ^ 32 by omega), ← hB]
  split_ifs with hline
  · obtain ⟨s₂, hrest, h₂⟩ : ∃ s₂, zeroWord4 fuel last (s₁, A) = some s₂ ∧
      Filled 0 A (last + 1) s₁ s₂ :=
      zeroWord4_filled (by omega) (by omega) (by omega) (by omega)
    exact ⟨s₂, hrest, h₁.trans h₂ (by omega) (by omega)⟩
  obtain ⟨s₂, hwords, h₂⟩ : ∃ s₂, zeroLoop fuel (storeWord 0) B (s₁, A) = some (s₂, B) ∧
    Filled 0 A B s₁ s₂ :=
    zeroLoop_filled clears_storeWord (by decide) (by omega) (by omega) (by omega)
      (by omega) (by omega)
  obtain ⟨C, hC⟩ : ∃ C, C = last / 32 * 32 := ⟨_, rfl⟩
  obtain ⟨s₃, hlines, h₃⟩ : ∃ s₃, zeroLoop fuel zeroLine C (s₂, B) = some (s₃, C) ∧
    Filled 0 B C s₂ s₃ :=
    zeroLoop_filled clears_zeroLine (by decide) (by omega) (by omega)
      (by rw [POWERPC_CACHE_LINE_SIZE]; omega)
      (by rw [POWERPC_CACHE_LINE_SIZE]; omega) (by omega)
  obtain ⟨s₄, hrest, h₄⟩ : ∃ s₄, zeroWord4 fuel last (s₃, C) = some s₄ ∧
    Filled 0 C (last + 1) s₃ s₄ :=
    zeroWord4_filled (by omega) (by omega) (by omega) (by omega)
  simp only [alignDown_line (show last < 2 ^ 32 by omega), ← hC, hwords, Option.bind_some,
    hlines, hrest]
  exact ⟨s₄, rfl, h₁.trans (h₂.trans (h₃.trans h₄ (by omega) (by omega)) (by omega) (by omega))
    (by omega) (by omega)⟩

/-- Seventy bytes from the address 30: two of them to the first boundary, which is that of a line,
    and two lines. -/
theorem zero_block_filled_seventy :
    ∃ s', zero_block 70 ⟨fun _ => 1, []⟩ 30 70 = some s' ∧ Filled 0 30 100 ⟨fun _ => 1, []⟩ s' :=
  zero_block_filled ⟨fun _ => 1, []⟩ (by decide) (by decide) (by decide)

end DemoOs
