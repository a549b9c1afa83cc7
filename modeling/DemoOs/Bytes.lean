import DemoOs.Types
import Mathlib.Logic.Function.Basic

/-!
# Memory

The memory as a function from addresses to bytes: words in it, copying in it (`memcpy`), and the
bytes from an address on.
-/

namespace DemoOs

/-- The memory, by bytes. -/
abbrev Bytes := ℕ → UInt8

namespace Bytes

/-- The word at `a`, its most significant byte first. -/
def word (m : Bytes) (a : ℕ) : ℕ :=
  (m a).toNat * 2 ^ 24 + (m (a + 1)).toNat * 2 ^ 16 + (m (a + 2)).toNat * 2 ^ 8 + (m (a + 3)).toNat

/-- Storing a word at `a`. -/
def setWord (m : Bytes) (a v : ℕ) : Bytes := fun x =>
  if x = a then UInt8.ofNat (v / 2 ^ 24)
  else if x = a + 1 then UInt8.ofNat (v / 2 ^ 16)
  else if x = a + 2 then UInt8.ofNat (v / 2 ^ 8)
  else if x = a + 3 then UInt8.ofNat v
  else m x

/-- `memcpy`, byte by byte. -/
def memcpy (m : Bytes) (dst src : ℕ) : ℕ → Bytes
  | 0 => m
  | n + 1 =>
    let m := memcpy m dst src n
    Function.update m (dst + n) (m (src + n))

/-- The `n` bytes from `a` on. -/
def bytes (m : Bytes) (a n : ℕ) : List UInt8 := (List.range n).map fun i => m (a + i)

/-- Storing bytes from `a` on. -/
def store (m : Bytes) (a : ℕ) : List UInt8 → Bytes
  | [] => m
  | b :: l => store (Function.update m a b) (a + 1) l

variable {m m' : Bytes} {a b n x v dst src : ℕ}

@[simp] theorem length_bytes : (m.bytes a n).length = n := by simp [bytes]

theorem bytes_eq_iff : m.bytes a n = m'.bytes b n ↔ ∀ i < n, m (a + i) = m' (b + i) := by
  simp only [bytes, List.map_inj_left, List.mem_range]

theorem bytes_add (k : ℕ) : m.bytes a (n + k) = m.bytes a n ++ m.bytes (a + n) k := by
  simp [bytes, List.range_add, Function.comp_def, Nat.add_assoc]

theorem bytes_succ : m.bytes a (n + 1) = m a :: m.bytes (a + 1) n := by
  rw [Nat.add_comm n 1, bytes_add]
  rfl

theorem mem_bytes {i : ℕ} (hi : i < n) : m (a + i) ∈ m.bytes a n :=
  List.mem_map.2 ⟨i, List.mem_range.2 hi, rfl⟩

theorem word_congr (h : ∀ i < 4, m' (a + i) = m (a + i)) : m'.word a = m.word a := by
  simp only [word, h 1 (by decide), h 2 (by decide), h 3 (by decide)]
  rw [← Nat.add_zero a, h 0 (by decide)]

theorem setWord_of_ne (h : x < a ∨ a + 4 ≤ x) : m.setWord a v x = m x := by
  unfold setWord
  rw [if_neg (by omega), if_neg (by omega), if_neg (by omega), if_neg (by omega)]

theorem word_setWord (hv : v < 2 ^ 32) : (m.setWord a v).word a = v := by
  have h₀ : m.setWord a v a = UInt8.ofNat (v / 2 ^ 24) := if_pos rfl
  have h₁ : m.setWord a v (a + 1) = UInt8.ofNat (v / 2 ^ 16) := by simp [setWord]
  have h₂ : m.setWord a v (a + 2) = UInt8.ofNat (v / 2 ^ 8) := by simp [setWord]
  have h₃ : m.setWord a v (a + 3) = UInt8.ofNat v := by simp [setWord]
  rw [word, h₀, h₁, h₂, h₃]
  simp only [UInt8.toNat_ofNat']
  omega

theorem memcpy_of_ne (h : x < dst ∨ dst + n ≤ x) : m.memcpy dst src n x = m x := by
  induction n with
  | zero => rfl
  | succ n ih =>
    rw [memcpy, Function.update_of_ne (by omega), ih (by omega)]

/-- Where the source is apart from the destination, it is copied. -/
theorem memcpy_apply (h : src + n ≤ dst ∨ dst + n ≤ src) {i : ℕ} (hi : i < n) :
    m.memcpy dst src n (dst + i) = m (src + i) := by
  induction n with
  | zero => exact absurd hi (Nat.not_lt_zero i)
  | succ n ih =>
    rw [memcpy]
    by_cases hlast : i = n
    · rw [hlast, Function.update_self, memcpy_of_ne (by omega)]
    · rw [Function.update_of_ne (by omega), ih (by omega) (by omega)]

theorem store_of_ne {l : List UInt8} (h : x < a ∨ a + l.length ≤ x) : m.store a l x = m x := by
  induction l generalizing m a with
  | nil => rfl
  | cons b l ih =>
    rw [List.length_cons] at h
    rw [store, ih (by omega), Function.update_of_ne (by omega)]

theorem bytes_store (l : List UInt8) : (m.store a l).bytes a l.length = l := by
  induction l generalizing m a with
  | nil => rfl
  | cons b l ih =>
    rw [List.length_cons, bytes_succ, store, ih, store_of_ne (.inl (Nat.lt_succ_self a)),
      Function.update_self]

end Bytes

end DemoOs
