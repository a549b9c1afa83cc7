import Mathlib.Data.List.Basic
import Mathlib.Logic.Function.Basic

/-!
# Writing at a cursor

Memory that is written at a cursor, which moves on from one place to the next, together with the
places that have been written (`Cursor`). What is written while the cursor moves is a text
(`Cursor.Wrote`), and texts written one after the other are one text (`Cursor.Wrote.trans`). Where
writes may go is said by bounds (`Cursor.Within`).

A text that ends with a terminator is known from the memory (`eq_of_terminated`).
-/

namespace DemoOs

/-- Memory, a place in it, and the places that have been written. -/
structure Cursor (α : Type*) where
  mem : ℕ → α
  pt : ℕ
  written : List ℕ

namespace Cursor

variable {α : Type*} {c c' c'' : Cursor α} {x : α} {w w' : List α} {lo hi a : ℕ}

/-- Writing at the cursor, which stays. -/
def store (c : Cursor α) (x : α) : Cursor α :=
  { c with mem := Function.update c.mem c.pt x, written := c.pt :: c.written }

/-- Writing at the cursor, which moves on. -/
def put (c : Cursor α) (x : α) : Cursor α := { c.store x with pt := c.pt + 1 }

/-- Writing one thing after the other. -/
def putAll (c : Cursor α) : List α → Cursor α
  | [] => c
  | x :: w => (c.put x).putAll w

@[simp] theorem store_pt : (c.store x).pt = c.pt := rfl

@[simp] theorem put_pt : (c.put x).pt = c.pt + 1 := rfl

theorem store_mem_self : (c.store x).mem c.pt = x := Function.update_self ..

theorem store_mem_of_ne (ha : a ≠ c.pt) : (c.store x).mem a = c.mem a := Function.update_of_ne ha ..

/-! ## What is written -/

/-- The text `w` is written while the cursor moves from `c` to `c'`. -/
structure Wrote (c c' : Cursor α) (w : List α) : Prop where
  pt : c'.pt = c.pt + w.length
  text : ∀ i (h : i < w.length), c'.mem (c.pt + i) = w[i]
  below : ∀ a < c.pt, c'.mem a = c.mem a
  written : ∀ a, c.pt ≤ a → a < c'.pt → a ∈ c'.written
  mono : ∀ a ∈ c.written, a ∈ c'.written

theorem Wrote.refl (c : Cursor α) : c.Wrote c [] where
  pt := rfl
  text i h := absurd h (Nat.not_lt_zero i)
  below _ _ := rfl
  written _ h h' := absurd h' (Nat.not_lt.2 h)
  mono _ h := h

theorem Wrote.put (c : Cursor α) (x : α) : c.Wrote (c.put x) [x] where
  pt := rfl
  text i h := by
    obtain rfl : i = 0 := by simpa using h
    exact store_mem_self
  below _ h := store_mem_of_ne (Nat.ne_of_lt h)
  written a h h' := by
    obtain rfl : a = c.pt := Nat.le_antisymm (Nat.le_of_lt_succ h') h
    exact List.mem_cons_self
  mono _ h := List.mem_cons_of_mem _ h

theorem Wrote.trans (h : c.Wrote c' w) (h' : c'.Wrote c'' w') : c.Wrote c'' (w ++ w') where
  pt := by rw [h'.pt, h.pt, List.length_append, Nat.add_assoc]
  text i hi := by
    rw [List.getElem_append]
    split_ifs with hw
    · rw [h'.below _ (by rw [h.pt]; omega), h.text i hw]
    · have hpt : c.pt + i = c'.pt + (i - w.length) := by rw [h.pt]; omega
      rw [hpt]
      exact h'.text ..
  below a ha := by
    have hpt := h.pt
    rw [h'.below a (by omega), h.below a ha]
  written a ha ha' := by
    by_cases hlt : a < c'.pt
    · exact h'.mono a (h.written a ha hlt)
    · exact h'.written a (Nat.not_lt.1 hlt) ha'
  mono a ha := h'.mono a (h.mono a ha)

/-- What is stored at the cursor afterwards is not part of the text. -/
theorem Wrote.store (h : c.Wrote c' w) (x : α) : c.Wrote (c'.store x) w where
  pt := h.pt
  text i hi := by
    rw [store_mem_of_ne (by rw [h.pt]; omega), h.text i hi]
  below a ha := by
    have hpt := h.pt
    rw [store_mem_of_ne (by omega), h.below a ha]
  written a ha ha' := List.mem_cons_of_mem _ (h.written a ha ha')
  mono a ha := List.mem_cons_of_mem _ (h.mono a ha)

theorem Wrote.putAll (c : Cursor α) (w : List α) : c.Wrote (c.putAll w) w := by
  induction w generalizing c with
  | nil => exact .refl c
  | cons x w ih => exact (Wrote.put c x).trans (ih (c.put x))

/-! ## Where it is written -/

/-- Nothing is written outside the bounds. -/
def Within (lo hi : ℕ) (c c' : Cursor α) : Prop := ∀ a ∈ c'.written, a ∈ c.written ∨
  (lo ≤ a ∧ a < hi)

theorem Within.refl (c : Cursor α) : Within lo hi c c := fun _ ha => .inl ha

theorem Within.trans (h : Within lo hi c c') (h' : Within lo hi c' c'') :
    Within lo hi c c'' := fun a ha =>
  (h' a ha).elim (h a) .inr

theorem Within.mono {lo' hi' : ℕ} (h : Within lo hi c c') (hlo : lo' ≤ lo) (hhi : hi ≤ hi') :
    Within lo' hi' c c' :=
  fun a ha => (h a ha).imp_right fun ⟨hl, hr⟩ => ⟨Nat.le_trans hlo hl, Nat.lt_of_lt_of_le hr hhi⟩

theorem Within.store (hlo : lo ≤ c.pt) (hhi : c.pt < hi) : Within lo hi c (c.store x) :=
  fun a ha => by
  rcases List.mem_cons.1 ha with rfl | ha
  · exact .inr ⟨hlo, hhi⟩
  · exact .inl ha

theorem Within.put (hlo : lo ≤ c.pt) (hhi : c.pt < hi) : Within lo hi c (c.put x) :=
  Within.store (x := x) hlo hhi

/-! ## Texts with a terminator -/

/-- There is one text between a place and the first terminator behind it. -/
theorem eq_of_terminated {mem : ℕ → α} {s : ℕ} (hw : x ∉ w) (hw' : x ∉ w')
    (h : ∀ i (hi : i < w.length), mem (s + i) = w[i]) (hx : mem (s + w.length) = x)
    (h' : ∀ i (hi : i < w'.length), mem (s + i) = w'[i]) (hx' : mem (s + w'.length) = x) :
    w = w' := by
  have hle : ∀ {v v' : List α}, x ∉ v → (∀ i (hi : i < v.length), mem (s + i) = v[i]) →
      mem (s + v'.length) = x → v.length ≤ v'.length := by
    intro v v' hv htext hterm
    by_contra hlt
    have hlt := Nat.not_le.1 hlt
    rw [htext _ hlt] at hterm
    exact hv (hterm ▸ List.getElem_mem hlt)
  have hlen := Nat.le_antisymm (hle hw h hx') (hle hw' h' hx)
  exact List.ext_getElem hlen fun i hi hi' => (h i hi).symm.trans (h' i hi')

end Cursor

end DemoOs
