import Mathlib.Algebra.BigOperators.Group.Finset.Basic
import Mathlib.Algebra.Order.BigOperators.Group.Finset
import Mathlib.Data.Fintype.BigOperators
import Mathlib.Logic.Function.Basic

/-!
# Radix trees

Trees all of whose leaves are at one depth: a tree of level zero is a leaf, and a tree of level `l +
1` has children of level `l` at some of the indices. A leaf is found by the path to it, the index to
be followed at each level.

* `leaf_modify_self`, `leaf_modify_of_ne`: changing a leaf leaves the others alone;
* `nodes_setChild`: how many nodes a tree has once it has another child;
* `exists_digit_ne`: if the path to a number are its digits, numbers that differ have different
  paths.
-/

namespace DemoOs

universe u

/-- Trees of a level. -/
def Radix (ι α : Type u) : ℕ → Type u
  | 0 => α
  | l + 1 => ι → Option (Radix ι α l)

namespace Radix

variable {ι α : Type u} {l : ℕ}

def child (t : Radix ι α (l + 1)) (i : ι) : Option (Radix ι α l) := t i

/-- A tree, by its children. -/
def ofChildren (c : ι → Option (Radix ι α l)) : Radix ι α (l + 1) := c

/-- A tree without leaves. -/
def bare : Radix ι α (l + 1) := ofChildren fun _ => none

def setChild [DecidableEq ι] (t : Radix ι α (l + 1)) (i : ι) (c : Option (Radix ι α l)) :
    Radix ι α (l + 1) :=
  Function.update t i c

/-- The leaf a path leads to. -/
def leaf (path : ℕ → ι) : (l : ℕ) → Radix ι α l → Option α
  | 0, a => some a
  | l + 1, t => (child t (path l)).bind (leaf path l)

/-- A leaf that is there is changed. -/
def modify [DecidableEq ι] (path : ℕ → ι) (f : α → α) : (l : ℕ) → Radix ι α l → Radix ι α l
  | 0, a => f a
  | l + 1, t => setChild t (path l) ((child t (path l)).map (modify path f l))

/-- How many nodes there are. -/
def nodes [Fintype ι] : (l : ℕ) → Radix ι α l → ℕ
  | 0, _ => 1
  | l + 1, t => 1 + ∑ i, ((child t i).map (nodes l)).getD 0

variable {path path' : ℕ → ι} {t : Radix ι α (l + 1)} {i j : ι} {c : Option (Radix ι α l)}

@[simp] theorem child_ofChildren (c : ι → Option (Radix ι α l)) :
    child (ofChildren c) i = c i := rfl

@[simp] theorem child_bare : child (bare : Radix ι α (l + 1)) i = none := rfl

@[simp] theorem leaf_bare : leaf path (l + 1) (bare : Radix ι α (l + 1)) = none := rfl

@[simp] theorem leaf_zero (a : Radix ι α 0) : leaf path 0 a = some a := rfl

theorem leaf_congr {t : Radix ι α l} (h : ∀ i < l, path' i = path i) :
    leaf path' l t = leaf path l t := by
  induction l with
  | zero => rfl
  | succ l ih =>
    rw [leaf, leaf, h l (Nat.lt_succ_self l)]
    exact congrArg _ (funext fun t => ih fun i hi => h i (Nat.lt_succ_of_lt hi))

section DecidableEq

variable [DecidableEq ι] {f : α → α}

@[simp] theorem child_setChild_self : child (setChild t i c) i = c := Function.update_self ..

theorem child_setChild_of_ne (h : j ≠ i) : child (setChild t i c) j = child t j :=
  Function.update_of_ne h ..

theorem leaf_setChild_self : leaf path (l + 1) (setChild t (path l) c) = c.bind (leaf path l) := by
  rw [leaf, child_setChild_self]

theorem leaf_setChild_of_ne (h : path l ≠ i) :
    leaf path (l + 1) (setChild t i c) = leaf path (l + 1) t := by
  rw [leaf, leaf, child_setChild_of_ne h]

theorem leaf_modify_self (t : Radix ι α l) :
    leaf path l (modify path f l t) = (leaf path l t).map f := by
  induction l with
  | zero => rfl
  | succ l ih =>
    rw [modify, leaf_setChild_self, leaf]
    cases child t (path l) with
    | none => rfl
    | some c => exact ih c

/-- Where the paths part, there are two leaves. -/
theorem leaf_modify_of_ne (t : Radix ι α l) (h : ∃ i < l, path' i ≠ path i) :
    leaf path' l (modify path f l t) = leaf path' l t := by
  induction l with
  | zero => exact absurd h fun ⟨i, hi, _⟩ => Nat.not_lt_zero i hi
  | succ l ih =>
    by_cases hpath : path' l = path l
    · obtain ⟨i, hi, hne⟩ := h
      have hlt : i < l := Nat.lt_of_le_of_ne (Nat.le_of_lt_succ hi) fun heq => hne (heq ▸ hpath)
      rw [modify, ← hpath, leaf_setChild_self, leaf]
      cases child t (path' l) with
      | none => rfl
      | some c => exact ih c ⟨i, hlt, hne⟩
    · rw [modify, leaf_setChild_of_ne hpath]

end DecidableEq

section Fintype

variable [Fintype ι]

variable [DecidableEq ι]

/-- Another child, instead of the one that was there. -/
theorem nodes_setChild (t : Radix ι α (l + 1)) (i : ι) (c : Option (Radix ι α l)) :
    nodes (l + 1) (setChild t i c) + ((child t i).map (nodes l)).getD 0 =
      nodes (l + 1) t + (c.map (nodes l)).getD 0 := by
  have hrest : ∑ j ∈ Finset.univ.erase i, ((child (setChild t i c) j).map (nodes l)).getD 0 =
      ∑ j ∈ Finset.univ.erase i, ((child t j).map (nodes l)).getD 0 :=
    Finset.sum_congr rfl fun j hj => by rw [child_setChild_of_ne (Finset.ne_of_mem_erase hj)]
  have hnew :=
    Finset.sum_erase_add Finset.univ (fun j => ((child (setChild t i c) j).map (nodes l)).getD 0)
    (Finset.mem_univ i)
  have hold :=
    Finset.sum_erase_add Finset.univ (fun j => ((child t j).map (nodes l)).getD 0)
    (Finset.mem_univ i)
  rw [child_setChild_self, hrest] at hnew
  rw [nodes, nodes]
  omega

theorem nodes_modify {f : α → α} (t : Radix ι α l) : nodes l (modify path f l t) = nodes l t := by
  induction l with
  | zero => rfl
  | succ l ih =>
    have h := nodes_setChild t (path l) ((child t (path l)).map (modify path f l))
    have hsame : ((child t (path l)).map (modify path f l)).map (nodes l) =
        (child t (path l)).map (nodes l) := by
      cases child t (path l) with
      | none => rfl
      | some c => exact congrArg some (ih c)
    rw [hsame] at h
    rw [modify]
    omega

end Fintype

end Radix

/-! ## Numbers as paths -/

/-- If all digits are the same, so are the numbers, as far as the digits go. -/
theorem mod_pow_eq_of_digits {b l m n : ℕ} (h : ∀ i < l, m / b ^ i % b = n / b ^ i % b) :
    m % b ^ l = n % b ^ l := by
  induction l with
  | zero => rw [pow_zero, Nat.mod_one, Nat.mod_one]
  | succ l ih =>
    rw [pow_succ, Nat.mod_mul, Nat.mod_mul, ih fun i hi => h i (Nat.lt_succ_of_lt hi),
      h l (Nat.lt_succ_self l)]

/-- There is a number with any digits. -/
theorem exists_of_digits {b : ℕ} (l : ℕ) (d : ℕ → ℕ) (hd : ∀ i < l, d i < b) :
    ∃ n < b ^ l, ∀ i < l, n / b ^ i % b = d i := by
  induction l with
  | zero => exact ⟨0, Nat.one_pos, fun i hi => absurd hi (Nat.not_lt_zero i)⟩
  | succ l ih =>
    obtain ⟨n, hn, hdigits⟩ := ih fun i hi => hd i (Nat.lt_succ_of_lt hi)
    have hlast := hd l (Nat.lt_succ_self l)
    refine ⟨n + b ^ l * d l, ?_, fun i hi => ?_⟩
    · calc n + b ^ l * d l < b ^ l + b ^ l * d l := Nat.add_lt_add_right hn _
        _ = b ^ l * (d l + 1) := by rw [Nat.mul_succ, Nat.add_comm]
        _ ≤ b ^ (l + 1) := by rw [pow_succ]; exact Nat.mul_le_mul_left _ hlast
    · rcases Nat.lt_succ_iff_lt_or_eq.1 hi with hlt | rfl
      · -- What is added is a multiple of all lower places.
        have hb : 0 < b ^ i := Nat.pow_pos (Nat.zero_lt_of_lt hlast)
        obtain ⟨m, rfl⟩ := Nat.exists_eq_add_of_lt hlt
        have hsplit : b ^ (i + m + 1) * d (i + m + 1) = b ^ i * (b * (b ^ m * d (i + m + 1))) := by
          rw [pow_succ, pow_add]
          simp only [Nat.mul_assoc, Nat.mul_left_comm]
        rw [hsplit, Nat.add_mul_div_left _ _ hb, Nat.add_mul_mod_self_left]
        exact hdigits i hlt
      · rw [Nat.add_mul_div_left _ _ (Nat.zero_lt_of_lt hn), Nat.div_eq_of_lt hn, Nat.zero_add,
          Nat.mod_eq_of_lt hlast]

theorem exists_digit_ne {b l m n : ℕ} (hm : m < b ^ l) (hn : n < b ^ l) (hne : m ≠ n) :
    ∃ i < l, m / b ^ i % b ≠ n / b ^ i % b := by
  by_contra h
  push Not at h
  exact hne (by rw [← Nat.mod_eq_of_lt hm, ← Nat.mod_eq_of_lt hn, mod_pow_eq_of_digits h])

end DemoOs
