import Mathlib.Data.Nat.Notation
import Mathlib.Logic.Function.Basic
import Mathlib.Logic.Equiv.Basic
import Mathlib.Tactic.SplitIfs
import Mathlib.Tactic.TypeStar

/-!
# Rearranging a segment

The exchange of two blocks of a sequence (`exchange`), which may be taken step by step
(`exchange_comp`) and block by block (`exchange_scale`), and what comes of such exchanges: the
values between two places in another order, the others as they were (`Rearranges`). Values all of a
kind are so still after it (`Rearranges.all`).

An ascending segment (`Ascending`) may be put together from two (`Ascending.append`).
-/

namespace DemoOs

variable {α β : Type*} {f g h : ℕ → α} {P Q : α → Prop} {a b i j k lo hi lo' hi' p q r s : ℕ}

/-! ## Exchanging blocks -/

/-- The blocks of `r` places at `p` and `q` are the same, or apart. -/
def Exchangeable (p q r : ℕ) : Prop := p = q ∨ p + r ≤ q ∨ q + r ≤ p

theorem Exchangeable.mono (h : Exchangeable p q r) (hs : s ≤ r) : Exchangeable p q s := by
  unfold Exchangeable at *
  omega

theorem Exchangeable.rest (h : Exchangeable p q (r + s)) : Exchangeable (p + r) (q + r) s := by
  unfold Exchangeable at *
  omega

/-- The place from which `i` gets its value when the blocks of `r` places at `p` and `q` are
    exchanged. -/
def exchange (p q r i : ℕ) : ℕ :=
  if p ≤ i ∧ i < p + r then q + (i - p) else if q ≤ i ∧ i < q + r then p + (i - q) else i

theorem exchange_left (h : p ≤ i) (h' : i < p + r) : exchange p q r i = q + (i - p) :=
  if_pos ⟨h, h'⟩

theorem exchange_right (hapart : Exchangeable p q r) (h : q ≤ i) (h' : i < q + r) :
    exchange p q r i = p + (i - q) := by
  rcases hapart with rfl | hapart
  · exact exchange_left h h'
  · rw [exchange, if_neg (by omega), if_pos ⟨h, h'⟩]

theorem exchange_of_not (h : ¬(p ≤ i ∧ i < p + r)) (h' : ¬(q ≤ i ∧ i < q + r)) :
    exchange p q r i = i := by
  rw [exchange, if_neg h, if_neg h']

/-- Where a place is: in the one block, in the other, or in neither. -/
theorem exchange_cases (hapart : Exchangeable p q r) (i : ℕ) :
    (p ≤ i ∧ i < p + r ∧ exchange p q r i = q + (i - p)) ∨
    (q ≤ i ∧ i < q + r ∧ exchange p q r i = p + (i - q)) ∨
      (¬(p ≤ i ∧ i < p + r) ∧ ¬(q ≤ i ∧ i < q + r) ∧ exchange p q r i = i) := by
  by_cases h : p ≤ i ∧ i < p + r
  · exact .inl ⟨h.1, h.2, exchange_left h.1 h.2⟩
  · by_cases h' : q ≤ i ∧ i < q + r
    · exact .inr (.inl ⟨h'.1, h'.2, exchange_right hapart h'.1 h'.2⟩)
    · exact .inr (.inr ⟨h, h', exchange_of_not h h'⟩)

theorem exchange_involutive (hapart : Exchangeable p q r) :
    Function.Involutive (exchange p q r) := by
  intro i
  rcases exchange_cases hapart i with ⟨h, h', heq⟩ | ⟨h, h', heq⟩ | ⟨_, _, heq⟩
  · rw [heq, exchange_right hapart (by omega) (by omega)]
    omega
  · rw [heq, exchange_left (by omega) (by omega)]
    omega
  · rw [heq, heq]

@[simp] theorem exchange_zero : exchange p q 0 = id := by
  funext i
  exact exchange_of_not (by omega) (by omega)

theorem exchange_self : exchange p p r = id := by
  funext i
  rw [exchange]
  split_ifs
  · exact Nat.add_sub_cancel' (by omega)
  · rfl

theorem exchange_one : exchange p q 1 i = if i = p then q else if i = q then p else i := by
  rw [exchange]
  split_ifs <;> omega

/-- Blocks are exchanged by exchanging first some places at their starts, then the rest. -/
theorem exchange_comp (hapart : Exchangeable p q (r + s)) :
    exchange p q r ∘ exchange (p + r) (q + r) s = exchange p q (r + s) := by
  funext i
  rw [Function.comp_apply]
  rcases exchange_cases hapart.rest i with ⟨h, h', heq⟩ | ⟨h, h', heq⟩ | ⟨h, h', heq⟩
  · rw [heq, exchange_left (q := q) (i := i) (by omega) (by omega)]
    rcases hapart with rfl | hapart
    · rw [exchange_self]
      change p + r + (i - (p + r)) = _
      omega
    · rw [exchange_of_not (by omega) (by omega)]
      omega
  · rw [heq, exchange_right hapart (by omega) (by omega)]
    rcases hapart with rfl | hapart
    · rw [exchange_self]
      change p + r + (i - (p + r)) = _
      omega
    · rw [exchange_of_not (by omega) (by omega)]
      omega
  · rw [heq]
    unfold exchange
    split_ifs <;> first | rfl | omega

/-- Exchanging blocks of `r` things, of `k` places each from `b` on. -/
theorem exchange_scale (hapart : Exchangeable p q r) (hj : j < k) :
    exchange (b + p * k) (b + q * k) (r * k) (b + i * k + j) = b + exchange p q r i * k + j := by
  -- A place is in a scaled range exactly if its block is in the range.
  have hin : ∀ x, b + x * k ≤ b + i * k + j ∧ b + i * k + j < b + x * k + r * k ↔
      x ≤ i ∧ i < x + r := by
    intro x
    constructor
    · rintro ⟨h, h'⟩
      constructor
      · by_contra hlt
        have : (i + 1) * k ≤ x * k := Nat.mul_le_mul_right k (by omega)
        rw [Nat.succ_mul] at this
        omega
      · by_contra hle
        have : (x + r) * k ≤ i * k := Nat.mul_le_mul_right k (by omega)
        rw [Nat.add_mul] at this
        omega
    · rintro ⟨h, h'⟩
      have hle : x * k ≤ i * k := Nat.mul_le_mul_right k h
      have hlt : (i + 1) * k ≤ (x + r) * k := Nat.mul_le_mul_right k h'
      rw [Nat.succ_mul, Nat.add_mul] at hlt
      omega
  have hplace : ∀ x y, x ≤ i →
      b + y * k + (b + i * k + j - (b + x * k)) = b + (y + (i - x)) * k + j := by
    intro x y hx
    have : i * k = x * k + (i - x) * k := by rw [← Nat.add_mul, Nat.add_sub_cancel' hx]
    rw [Nat.add_mul]
    omega
  rcases exchange_cases hapart i with ⟨h, h', heq⟩ | ⟨h, h', heq⟩ | ⟨h, h', heq⟩
  · rw [exchange, if_pos ((hin p).2 ⟨h, h'⟩), heq, hplace p q h]
  · by_cases hp : p ≤ i ∧ i < p + r
    · rw [exchange, if_pos ((hin p).2 hp), hplace p q hp.1, exchange_left hp.1 hp.2]
    · rw [exchange, if_neg (mt (hin p).1 hp), if_pos ((hin q).2 ⟨h, h'⟩), heq, hplace q p h]
  · rw [exchange, if_neg (mt (hin p).1 h), if_neg (mt (hin q).1 h'), heq]

/-- Two kinds of values, those of the one before those of the other, change places when as many
    places are exchanged at either end as the smaller of them has. -/
theorem exchange_ends (hlo : a ≤ p) (hhi : p ≤ b) (hr : r = min (p - a) (b - p))
    (hP : ∀ i, a ≤ i → i < p → P (f i)) (hQ : ∀ i, p ≤ i → i < b → Q (f i)) :
    (∀ i, a ≤ i → i < a + (b - p) → Q (f (exchange a (b - r) r i))) ∧
      ∀ i, a + (b - p) ≤ i → i < b → P (f (exchange a (b - r) r i)) := by
  have hapart : Exchangeable a (b - r) r := by unfold Exchangeable; omega
  constructor <;> intro i h h' <;>
    rcases exchange_cases hapart i with ⟨_, _, heq⟩ | ⟨_, _, heq⟩ | ⟨_, _, heq⟩ <;>
    rw [heq]
  · exact hQ _ (by omega) (by omega)
  · exact hQ _ (by omega) (by omega)
  · exact hQ _ (by omega) (by omega)
  · exact hP _ (by omega) (by omega)
  · exact hP _ (by omega) (by omega)
  · exact hP _ (by omega) (by omega)

/-! ## Rearrangements -/

/-- `g` has the values of `f`, those from `lo` to `hi` in another order. -/
def Rearranges (lo hi : ℕ) (f g : ℕ → α) : Prop :=
  ∃ σ : Equiv.Perm ℕ, (∀ i, i < lo ∨ hi ≤ i → σ i = i) ∧ g = f ∘ σ

namespace Rearranges

theorem refl (f : ℕ → α) : Rearranges lo hi f f := ⟨Equiv.refl ℕ, fun _ _ => rfl, rfl⟩

theorem trans (h₁ : Rearranges lo hi f g) (h₂ : Rearranges lo hi g h) : Rearranges lo hi f h := by
  obtain ⟨σ, hσ, rfl⟩ := h₁
  obtain ⟨τ, hτ, rfl⟩ := h₂
  refine ⟨τ.trans σ, fun i hi => ?_, rfl⟩
  rw [Equiv.trans_apply, hτ i hi, hσ i hi]

theorem mono (h : Rearranges lo hi f g) (hlo : lo' ≤ lo) (hhi : hi ≤ hi') :
    Rearranges lo' hi' f g := by
  obtain ⟨σ, hσ, rfl⟩ := h
  exact ⟨σ, fun i hi => hσ i (by omega), rfl⟩

theorem eq_of_not (h : Rearranges lo hi f g) (hi : i < lo ∨ hi ≤ i) : g i = f i := by
  obtain ⟨σ, hσ, rfl⟩ := h
  rw [Function.comp_apply, hσ i hi]

/-- A value of the segment was a value of the segment before. -/
theorem exists_eq (h : Rearranges lo hi f g) (hlo : lo ≤ i) (hhi : i < hi) : ∃ j, lo ≤ j ∧ j < hi ∧
    g i = f j := by
  obtain ⟨σ, hσ, rfl⟩ := h
  by_cases hin : lo ≤ σ i ∧ σ i < hi
  · exact ⟨σ i, hin.1, hin.2, rfl⟩
  · have : σ i = i := σ.injective (hσ (σ i) (by omega))
    omega

theorem all (h : Rearranges lo hi f g) (hP : ∀ i, lo ≤ i → i < hi → P (f i)) (hlo : lo ≤ i)
    (hhi : i < hi) :
    P (g i) := by
  obtain ⟨j, hj, hj', heq⟩ := h.exists_eq hlo hhi
  exact heq ▸ hP j hj hj'

theorem exchange (hapart : Exchangeable p q r) (hp : lo ≤ p) (hp' : p + r ≤ hi) (hq : lo ≤ q)
    (hq' : q + r ≤ hi) :
    Rearranges lo hi f (f ∘ DemoOs.exchange p q r) := by
  refine ⟨(exchange_involutive hapart).toPerm _, fun i hi => ?_, rfl⟩
  exact exchange_of_not (by omega) (by omega)

end Rearranges

/-! ## Ascending segments -/

/-- The values of `f` from `lo` to `hi` ascend. -/
def Ascending (R : α → α → Prop) (lo hi : ℕ) (f : ℕ → α) : Prop :=
  ∀ i j, lo ≤ i → i < j → j < hi → R (f i) (f j)

namespace Ascending

variable {R : α → α → Prop}

theorem of_le (h : hi ≤ lo + 1) : Ascending R lo hi f := fun i j hi hij hj => by omega

theorem congr (h : Ascending R lo hi f) (heq : ∀ i, lo ≤ i → i < hi → g i = f i) :
    Ascending R lo hi g := by
  intro i j hi hij hj
  rw [heq i hi (by omega), heq j (by omega) hj]
  exact h i j hi hij hj

/-- Two ascending segments are one, if the values of the first are before those of the second. -/
theorem append (h₁ : Ascending R lo p f) (h₂ : Ascending R p hi f)
    (h₃ : ∀ i j, lo ≤ i → i < p → p ≤ j → j < hi → R (f i) (f j)) : Ascending R lo hi f := by
  intro i j hi hij hj
  by_cases hjp : j < p
  · exact h₁ i j hi hij hjp
  · by_cases hip : i < p
    · exact h₃ i j hi hip (Nat.le_of_not_lt hjp) hj
    · exact h₂ i j (Nat.le_of_not_lt hip) hij hj

end Ascending

end DemoOs
