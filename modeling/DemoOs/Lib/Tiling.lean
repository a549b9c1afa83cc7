import Mathlib.Data.Set.Insert
import Mathlib.Logic.Function.Basic
import Mathlib.Tactic.Set

/-!
# Tilings with boundary tags

Blocks of addresses, each tiled by *segments*: a segment starts with a header, of at least `hs`
addresses, followed by its payload, and knows its neighbours in the block. A `Tiling` gives the
segment starting at an address, if there is one; it is well formed (`Wf`) when segments do not
overlap, and every block is covered from its start, each segment ending where the next one starts,
the last one at the end of the block.

The operations of an allocator keep it so:

* `split`: the end of a segment becomes a segment of its own;
* `absorb`: a segment takes over the one on its right;
* `setFree`, `pad`, `addSeg`: a segment changes hands, its header grows, a new block is added.

A tiling is *coalesced* when no two neighbours are free. The segments in use then determine the
free ones (`Wf.free_unique`): a free segment spans the whole gap between its neighbours.
-/

namespace DemoOs

/-- A segment: the block it lies in, the addresses of its neighbours in it (`0` for none), the
    lengths of its header and of its payload, and whether it is free. -/
@[ext]
structure Seg where
  lo : ℕ
  hi : ℕ
  left : ℕ
  right : ℕ
  hoff : ℕ
  avail : ℕ
  free : Bool
  deriving DecidableEq

/-- The length of a segment. -/
def Seg.len (s : Seg) : ℕ := s.hoff + s.avail

/-- The segment starting at each address, if any. -/
abbrev Tiling := ℕ → Option Seg

namespace Tiling

variable {hs : ℕ} {B : Set (ℕ × ℕ)} {T : Tiling}

/-- The segments tile the blocks `B`. -/
structure Wf (hs : ℕ) (B : Set (ℕ × ℕ)) (T : Tiling) : Prop where
  /-- No segment starts at the null address. -/
  pos : T 0 = none
  header : ∀ ⦃a s⦄, T a = some s → hs ≤ s.hoff
  free_header : ∀ ⦃a s⦄, T a = some s → s.free → s.hoff = hs
  block : ∀ ⦃a s⦄, T a = some s → (s.lo, s.hi) ∈ B ∧ s.lo ≤ a ∧ a + s.len ≤ s.hi
  left_eq_zero : ∀ ⦃a s⦄, T a = some s → (s.left = 0 ↔ a = s.lo)
  right_eq_zero : ∀ ⦃a s⦄, T a = some s → (s.right = 0 ↔ a + s.len = s.hi)
  left : ∀ ⦃a s⦄, T a = some s → s.left ≠ 0 → ∃ t, T s.left = some t ∧ t.right = a
  right : ∀ ⦃a s⦄, T a = some s → s.right ≠ 0 → s.right = a + s.len ∧
    ∃ t, T s.right = some t ∧ t.left = a ∧ t.lo = s.lo ∧ t.hi = s.hi
  sep : ∀ ⦃a b s t⦄, T a = some s → T b = some t → a ≠ b → a + s.len ≤ b ∨ b + t.len ≤ a
  start : ∀ ⦃l h⦄, (l, h) ∈ B → ∃ s, T l = some s ∧ s.lo = l ∧ s.hi = h
  /-- The blocks do not overlap. -/
  blocks : ∀ ⦃b b'⦄, b ∈ B → b' ∈ B → b ≠ b' → b.2 ≤ b'.1 ∨ b'.2 ≤ b.1

/-- No two neighbours are free. -/
def Coalesced (T : Tiling) : Prop :=
  ∀ ⦃a s t⦄, T a = some s → T s.right = some t → s.free → t.free → False

/-- Changing the left neighbour of the segment at `r`, if there is one. -/
def setLeft (T : Tiling) (r v : ℕ) : Tiling :=
  Function.update T r ((T r).map fun u => { u with left := v })

/-- Cutting the segment `s` at `a` after `k` addresses of its payload: the rest of it becomes a
    free segment. -/
def split (hs : ℕ) (T : Tiling) (a : ℕ) (s : Seg) (k : ℕ) : Tiling :=
  let b := a + s.hoff + k
  setLeft (Function.update (Function.update T a (some { s with right := b, avail := k })) b
    (some { s with left := a, hoff := hs, avail := s.avail - k - hs, free := true })) s.right b

/-- The segment `s` at `a` takes over the segment `t` on its right. -/
def absorb (T : Tiling) (a : ℕ) (s t : Seg) : Tiling :=
  setLeft (Function.update (Function.update T s.right none) a
    (some { s with right := t.right, avail := s.avail + t.avail + t.hoff })) t.right a

/-- The segment `s` at `a` becomes free or not; a free one has the shortest header. -/
def setFree (hs : ℕ) (T : Tiling) (a : ℕ) (s : Seg) (f : Bool) : Tiling :=
  Function.update T a (some (if f then
    { s with hoff := hs, avail := s.avail + s.hoff - hs, free := true }
      else { s with free := false }))

/-- The header of the segment `s` at `a` grows by `d`, at the cost of its payload. -/
def pad (T : Tiling) (a : ℕ) (s : Seg) (d : ℕ) : Tiling :=
  Function.update T a (some { s with hoff := s.hoff + d, avail := s.avail - d })

/-- A new block, made of one free segment. -/
def addSeg (hs : ℕ) (T : Tiling) (l h : ℕ) : Tiling :=
  Function.update T l (some ⟨l, h, 0, 0, hs, h - l - hs, true⟩)

/-- The neighbour is told of its new left neighbour. -/
theorem setLeft_apply (T : Tiling) (r v c : ℕ) :
    T.setLeft r v c = if c = r then (T c).map fun u => { u with left := v } else T c := by
  by_cases h : c = r <;> simp [setLeft, h]

/-- A segment is taken. -/
theorem setFree_false_apply (hs : ℕ) (T : Tiling) (a : ℕ) (s : Seg) (c : ℕ) :
    T.setFree hs a s false c = if c = a then some { s with free := false } else T c :=
  Function.update_apply ..

/-- A segment is given back, with its whole header. -/
theorem setFree_true_apply (hs : ℕ) (T : Tiling) (a : ℕ) (s : Seg) (c : ℕ) :
    T.setFree hs a s true c =
      if c = a then some { s with hoff := hs, avail := s.avail + s.hoff - hs, free := true }
      else T c :=
  Function.update_apply ..

/-! ## Reading a tiling -/

theorem free_eq_false {a : ℕ} {s : Seg} (h : ¬(T a).any Seg.free) (ha : T a = some s) :
    s.free = false := by
  rw [ha, Option.any_some] at h
  simpa using h

/-- No segment begins at 0. -/
theorem Wf.ne_zero (h : Wf hs B T) {a : ℕ} {s : Seg} (ha : T a = some s) : a ≠ 0 := by
  rintro rfl
  rw [h.pos] at ha
  cases ha

/-- The neighbour on the right of a segment is not that segment. -/
theorem Wf.right_ne (h : Wf hs B T) (hhs : 0 < hs) {a : ℕ} {s : Seg} (ha : T a = some s) :
    s.right ≠ a := by
  intro e
  have hh := h.header ha
  by_cases h₀ : s.right = 0
  · exact h.ne_zero ha (e.symm.trans h₀)
  · have := (h.right ha h₀).1
    rw [Seg.len] at this
    omega

/-- No segment starts inside another one. -/
theorem Wf.none_of_inside (h : Wf hs B T) (hhs : 0 < hs) {a c : ℕ} {s : Seg} (ha : T a = some s)
    (h₁ : a < c) (h₂ : c < a + s.len) : T c = none := by
  by_contra hc
  obtain ⟨t, ht⟩ := Option.ne_none_iff_exists'.1 hc
  have hsep := h.sep ha ht h₁.ne
  have hh := h.header ht
  simp only [Seg.len] at hsep h₂
  omega

/-- The neighbour on the left of a segment ends where it starts. -/
theorem Wf.left_end (h : Wf hs B T) {a : ℕ} {s : Seg} (ha : T a = some s) (h₀ : s.left ≠ 0) :
    ∃ t, T s.left = some t ∧ t.right = a ∧ a = s.left + t.len ∧ t.lo = s.lo ∧ t.hi = s.hi := by
  obtain ⟨t, ht, hta⟩ := h.left ha h₀
  obtain ⟨he, u, hu, -, hlo, hhi⟩ := h.right ht (hta ▸ h.ne_zero ha)
  rw [hta] at he hu
  obtain rfl : u = s := by rw [hu] at ha; exact Option.some.inj ha
  exact ⟨t, ht, hta, he, hlo.symm, hhi.symm⟩

/-- The neighbours of a segment, as they know it. -/
theorem Wf.of_left (h : Wf hs B T) {a : ℕ} {s t : Seg} (ha : T a = some s)
    (ht : T s.left = some t) :
    t.right = a ∧ a = s.left + t.len ∧ t.lo = s.lo ∧ t.hi = s.hi := by
  obtain ⟨u, hu, hend⟩ := h.left_end ha (h.ne_zero ht)
  obtain rfl : t = u := Option.some.inj (ht.symm.trans hu)
  exact hend

/-- A segment ends where the next one begins. -/
theorem Wf.of_right (h : Wf hs B T) {a : ℕ} {s t : Seg} (ha : T a = some s)
    (ht : T s.right = some t) :
    s.right = a + s.len ∧ t.left = a ∧ t.lo = s.lo ∧ t.hi = s.hi := by
  obtain ⟨he, u, hu, hleft⟩ := h.right ha (h.ne_zero ht)
  obtain rfl : t = u := Option.some.inj (ht.symm.trans hu)
  exact ⟨he, hleft⟩

/-- The neighbour on the left of a segment is not that segment. -/
theorem Wf.left_ne (h : Wf hs B T) (hhs : 0 < hs) {a : ℕ} {s t : Seg} (ha : T a = some s)
    (ht : T s.left = some t) : s.left ≠ a := by
  have hend := (h.of_left ha ht).2.1
  have hh := h.header ht
  rw [Seg.len] at hend
  omega

/-! ## Splitting -/

section Split

variable (h : Wf hs B T) (hhs : 0 < hs) {a : ℕ} {s : Seg} (ha : T a = some s) {k : ℕ}
  (hk : k + hs ≤ s.avail)

include h hhs ha hk

/-- The new segment starts inside the one it was cut from. -/
theorem Wf.split_fresh : T (a + s.hoff + k) = none := by
  have hh := h.header ha
  exact h.none_of_inside hhs ha (by omega) (by rw [Seg.len]; omega)

theorem Wf.split_ne_right : s.right ≠ a + s.hoff + k := by
  intro e
  by_cases h₀ : s.right = 0
  · have hh := h.header ha
    omega
  · obtain ⟨t, ht, -⟩ := (h.right ha h₀).2
    rw [e, h.split_fresh hhs ha hk] at ht
    cases ht

/-- The tiling after a split. -/
theorem Wf.split_apply (c : ℕ) :
    split hs T a s k c =
      if c = a then some { s with right := a + s.hoff + k, avail := k }
      else if c = a + s.hoff + k then
        some { s with left := a, hoff := hs, avail := s.avail - k - hs, free := true }
      else if c = s.right then (T c).map fun u => { u with left := a + s.hoff + k }
      else T c := by
  have hne := h.right_ne hhs ha
  have hbr := h.split_ne_right hhs ha hk
  have hh := h.header ha
  simp only [Tiling.split, setLeft_apply, Function.update_apply]
  by_cases h₁ : c = s.right
  · simp [h₁, hne, hbr]
  · by_cases h₂ : c = a
    · simp [h₂, hne.symm, show a ≠ a + s.hoff + k by omega]
    · simp [h₁, h₂]

/-- The first part. -/
theorem Wf.split_self :
    Tiling.split hs T a s k a = some { s with right := a + s.hoff + k, avail := k } :=
  (h.split_apply hhs ha hk a).trans (if_pos rfl)

/-- The second part, which is free. -/
theorem Wf.split_new :
    Tiling.split hs T a s k (a + s.hoff + k) =
      some { s with left := a, hoff := hs, avail := s.avail - k - hs, free := true } := by
  have hh := h.header ha
  rw [h.split_apply hhs ha hk, if_neg (by omega), if_pos rfl]

/-- A segment other than the one cut stays, its left neighbour apart. -/
theorem Wf.split_keep {c : ℕ} {t : Seg} (hc : T c = some t) (hca : c ≠ a) :
    Tiling.split hs T a s k c =
      some (if c = s.right then { t with left := a + s.hoff + k } else t) := by
  have hcb : c ≠ a + s.hoff + k := by
    rintro rfl
    rw [h.split_fresh hhs ha hk] at hc
    cases hc
  rw [h.split_apply hhs ha hk, if_neg hca, if_neg hcb, hc]
  split_ifs <;> rfl

/-- Left neighbours after a split. -/
theorem Wf.split_left {c : ℕ} {u : Seg} (hu : Tiling.split hs T a s k c = some u)
    (h₀ : u.left ≠ 0) : ∃ t, Tiling.split hs T a s k u.left = some t ∧ t.right = c := by
  have happ := h.split_apply hhs ha hk
  have hne := h.right_ne hhs ha
  rw [happ] at hu
  split_ifs at hu with h₁ h₂ h₃
  · obtain rfl := Option.some.inj hu
    obtain ⟨t, ht, hta⟩ := h.left ha h₀
    have : s.left ≠ a := fun e => hne (by rw [e, ha] at ht; rw [Option.some.inj ht, hta])
    exact ⟨_, h.split_keep hhs ha hk ht this, by split_ifs <;> simp [hta, h₁]⟩
  · obtain rfl := Option.some.inj hu
    exact ⟨_, h.split_self hhs ha hk, h₂.symm⟩
  · obtain ⟨t, ht, rfl⟩ := Option.map_eq_some_iff.1 hu
    exact ⟨_, h.split_new hhs ha hk, h₃.symm⟩
  · obtain ⟨t, ht, htc⟩ := h.left hu h₀
    have : u.left ≠ a := fun e => h₃ (by rw [e, ha] at ht; rw [Option.some.inj ht, htc])
    exact ⟨_, h.split_keep hhs ha hk ht this, by split_ifs <;> exact htc⟩

/-- Right neighbours after a split. -/
theorem Wf.split_right {c : ℕ} {u : Seg} (hu : Tiling.split hs T a s k c = some u)
    (h₀ : u.right ≠ 0) : u.right = c + u.len ∧
      ∃ t, Tiling.split hs T a s k u.right = some t ∧ t.left = c ∧ t.lo = u.lo ∧ t.hi = u.hi := by
  have happ := h.split_apply hhs ha hk
  have hne := h.right_ne hhs ha
  have hr := h.right ha
  rw [happ] at hu
  split_ifs at hu with h₁ h₂ h₃
  · obtain rfl := Option.some.inj hu
    exact ⟨by simp only [Seg.len, h₁, Nat.add_assoc], _, h.split_new hhs ha hk, h₁.symm, rfl, rfl⟩
  · obtain rfl := Option.some.inj hu
    obtain ⟨he, t, ht, -, hlo, hhi⟩ := hr h₀
    refine ⟨by simp only [Seg.len] at he ⊢; omega, _, h.split_keep hhs ha hk ht hne, ?_⟩
    rw [if_pos rfl]
    exact ⟨h₂.symm, hlo, hhi⟩
  · -- The neighbour of the neighbour is beyond `s`.
    obtain ⟨t, ht, rfl⟩ := Option.map_eq_some_iff.1 hu
    obtain ⟨he, t', ht', hl, hlo, hhi⟩ := h.right ht h₀
    have hsa := (hr (h₃ ▸ h.ne_zero ht)).1
    have : t.right ≠ a := by simp only [Seg.len] at he hsa; omega
    refine ⟨he, _, h.split_keep hhs ha hk ht' this, ?_⟩
    have : t.right ≠ s.right := by rw [← h₃]; exact h.right_ne hhs ht
    rw [if_neg this]
    exact ⟨hl, hlo, hhi⟩
  · -- Any other segment has the neighbour it had, or the front part of `s`.
    obtain ⟨he, t, ht, hl, hlo, hhi⟩ := h.right hu h₀
    refine ⟨he, ?_⟩
    by_cases h₄ : u.right = a
    · rw [h₄, ha] at ht
      obtain rfl := Option.some.inj ht
      rw [h₄]
      exact ⟨_, h.split_self hhs ha hk, hl, hlo, hhi⟩
    · refine ⟨_, h.split_keep hhs ha hk ht h₄, ?_⟩
      have : u.right ≠ s.right := by
        intro e
        have hsr : s.right ≠ 0 := e ▸ h₀
        obtain ⟨-, t', ht', hl', -⟩ := hr hsr
        rw [e, ht'] at ht
        obtain rfl := Option.some.inj ht
        exact h₁ (hl.symm.trans hl')
      rw [if_neg this]
      exact ⟨hl, hlo, hhi⟩

/-- A tiling stays one when a segment is split. -/
theorem Wf.split : Wf hs B (split hs T a s k) := by
  have hpos := h.pos
  have hh := h.header ha
  have hbl := h.block ha
  have hl₀ := h.left_eq_zero ha
  have hr₀ := h.right_eq_zero ha
  have hr := h.right ha
  have hfresh := h.split_fresh hhs ha hk
  have happ := h.split_apply hhs ha hk
  -- Only the segment cut, the new one and the neighbour on the right have changed.
  constructor
  case left => exact fun c u => h.split_left hhs ha hk
  case right => exact fun c u => h.split_right hhs ha hk
  case pos => grind
  case header =>
    intro c u hu
    have := h.header (a := c)
    grind
  case free_header =>
    intro c u hu
    have := h.free_header (a := c)
    grind
  case block =>
    intro c u hu
    have := h.block (a := c)
    grind [Seg.len]
  case left_eq_zero =>
    intro c u hu
    have := h.left_eq_zero (a := c)
    grind [Seg.len]
  case right_eq_zero =>
    intro c u hu
    have := h.right_eq_zero (a := c)
    grind [Seg.len]
  case sep =>
    intro c d u v hc hd hcd
    have := h.sep (a := c) (b := d)
    have := h.sep (a := c) (b := a)
    have := h.sep (a := d) (b := a)
    grind [Seg.len]
  case start =>
    intro l h' hl
    have := h.start hl
    grind
  case blocks => exact h.blocks

end Split

/-! ## Absorbing -/

section Absorb

variable (h : Wf hs B T) (hhs : 0 < hs) {a : ℕ} {s t : Seg} (ha : T a = some s)
  (ht : T s.right = some t)

include h hhs ha ht

omit hhs ha in
theorem Wf.right_pos : s.right ≠ 0 := by
  exact h.ne_zero ht

theorem Wf.right_right_ne : t.right ≠ a := by
  intro e
  have h₂ := (h.right ha (h.right_pos ht)).1
  have h₃ := (h.right ht (e ▸ h.ne_zero ha)).1
  have hh := h.header ha
  simp only [Seg.len] at h₂ h₃
  omega

/-- The tiling after a segment has taken over its right neighbour. -/
theorem Wf.absorb_apply (c : ℕ) :
    absorb T a s t c =
      if c = a then some { s with right := t.right, avail := s.avail + t.avail + t.hoff }
      else if c = s.right then none
      else if c = t.right then (T c).map fun u => { u with left := a }
      else T c := by
  have hne := h.right_ne hhs ha
  have htne := h.right_ne hhs ht
  have hta := h.right_right_ne hhs ha ht
  simp only [absorb, setLeft_apply, Function.update_apply]
  grind

/-- The segment has the room of its neighbour. -/
theorem Wf.absorb_self : Tiling.absorb T a s t a =
    some { s with right := t.right, avail := s.avail + t.avail + t.hoff } :=
  (h.absorb_apply hhs ha ht a).trans (if_pos rfl)

/-- A segment other than the one grown and the one gone stays, its left neighbour apart. -/
theorem Wf.absorb_keep {c : ℕ} {v : Seg} (hc : T c = some v) (hca : c ≠ a) (hcr : c ≠ s.right) :
    Tiling.absorb T a s t c = some (if c = t.right then { v with left := a } else v) := by
  rw [h.absorb_apply hhs ha ht, if_neg hca, if_neg hcr, hc]
  split_ifs <;> rfl

/-- Left neighbours after a merge. -/
theorem Wf.absorb_left {c : ℕ} {u : Seg} (hu : Tiling.absorb T a s t c = some u)
    (h₁ : u.left ≠ 0) : ∃ v, Tiling.absorb T a s t u.left = some v ∧ v.right = c := by
  have happ := h.absorb_apply hhs ha ht
  have hne := h.right_ne hhs ha
  have hta' := h.right_right_ne hhs ha ht
  rw [happ] at hu
  split_ifs at hu with h₂ h₃ h₄
  · obtain rfl := Option.some.inj hu
    obtain ⟨v, hv, hva⟩ := h.left ha h₁
    have h₅ : s.left ≠ a := fun e => hne (by rw [e, ha] at hv; rw [Option.some.inj hv, hva])
    have h₆ : s.left ≠ s.right := fun e => hta' (by rw [e, ht] at hv; rw [Option.some.inj hv, hva])
    exact ⟨_, h.absorb_keep hhs ha ht hv h₅ h₆, by split_ifs <;> simp [hva, h₂]⟩
  · obtain ⟨v, hv, rfl⟩ := Option.map_eq_some_iff.1 hu
    exact ⟨_, h.absorb_self hhs ha ht, h₄.symm⟩
  · obtain ⟨v, hv, hvc⟩ := h.left hu h₁
    have h₅ : u.left ≠ a := fun e => h₃ (by rw [e, ha] at hv; rw [Option.some.inj hv, hvc])
    have h₆ : u.left ≠ s.right := fun e => h₄ (by rw [e, ht] at hv; rw [Option.some.inj hv, hvc])
    exact ⟨_, h.absorb_keep hhs ha ht hv h₅ h₆, by split_ifs <;> exact hvc⟩

/-- Right neighbours after a merge. -/
theorem Wf.absorb_right {c : ℕ} {u : Seg} (hu : Tiling.absorb T a s t c = some u)
    (h₁ : u.right ≠ 0) : u.right = c + u.len ∧
      ∃ v, Tiling.absorb T a s t u.right = some v ∧ v.left = c ∧ v.lo = u.lo ∧ v.hi = u.hi := by
  have happ := h.absorb_apply hhs ha ht
  have hta' := h.right_right_ne hhs ha ht
  have hr := h.right ht
  obtain ⟨he, t', ht', hta, hlo, hhi⟩ := h.right ha (h.right_pos ht)
  obtain rfl : t = t' := by rw [ht'] at ht; exact (Option.some.inj ht).symm
  rw [happ] at hu
  split_ifs at hu with h₂ h₃ h₄
  · obtain rfl := Option.some.inj hu
    obtain ⟨he', v, hv, -, hlo', hhi'⟩ := hr h₁
    have h₅ : t.right ≠ s.right := h.right_ne hhs ht
    refine ⟨by simp only [Seg.len] at he he' ⊢; omega, _, h.absorb_keep hhs ha ht hv hta' h₅, ?_⟩
    rw [if_pos rfl]
    exact ⟨h₂.symm, hlo'.trans hlo, hhi'.trans hhi⟩
  · -- The neighbour of the next neighbour is beyond both.
    obtain ⟨v, hv, rfl⟩ := Option.map_eq_some_iff.1 hu
    obtain ⟨he', w, hw, hl, hlo', hhi'⟩ := h.right hv h₁
    have hte := (hr (h₄ ▸ h.ne_zero hv)).1
    have h₅ : v.right ≠ a := by simp only [Seg.len] at he he' hte; omega
    have h₆ : v.right ≠ s.right := by simp only [Seg.len] at he he' hte; omega
    refine ⟨he', _, h.absorb_keep hhs ha ht hw h₅ h₆, ?_⟩
    have h₇ : v.right ≠ t.right := by rw [← h₄]; exact h.right_ne hhs hv
    rw [if_neg h₇]
    exact ⟨hl, hlo', hhi'⟩
  · -- Any other segment has the neighbour it had, which is not one of the two.
    obtain ⟨he', v, hv, hl, hlo', hhi'⟩ := h.right hu h₁
    refine ⟨he', ?_⟩
    by_cases h₅ : u.right = a
    · rw [h₅, ha] at hv
      obtain rfl := Option.some.inj hv
      rw [h₅]
      exact ⟨_, h.absorb_self hhs ha ht, hl, hlo', hhi'⟩
    · have h₆ : u.right ≠ s.right := by
        intro e
        rw [e, ht] at hv
        rw [← Option.some.inj hv, hta] at hl
        exact h₂ hl.symm
      have h₇ : u.right ≠ t.right := by
        intro e
        obtain ⟨-, w, hw, hl', -⟩ := hr (e ▸ h₁)
        rw [e, hw] at hv
        exact h₃ (hl.symm.trans (by rw [← Option.some.inj hv, hl']))
      refine ⟨_, h.absorb_keep hhs ha ht hv h₅ h₆, ?_⟩
      rw [if_neg h₇]
      exact ⟨hl, hlo', hhi'⟩

/-- A tiling stays one when a segment takes in its right neighbour. -/
theorem Wf.absorb : Wf hs B (absorb T a s t) := by
  have hpos := h.pos
  have h₀ := h.right_pos ht
  obtain ⟨he, t', ht', hta, hlo, hhi⟩ := h.right ha h₀
  obtain rfl : t = t' := by rw [ht'] at ht; exact (Option.some.inj ht).symm
  have hh := h.header ha
  have hht := h.header ht
  have hbl := h.block ha
  have hblt := h.block ht
  have hl₀ := h.left_eq_zero ha
  have hr₀ := h.right_eq_zero ht
  have hr := h.right ht
  have happ := h.absorb_apply hhs ha ht
  -- Only the segment grown, the one gone and the next neighbour on the right have changed.
  constructor
  case left => exact fun c u => h.absorb_left hhs ha ht
  case right => exact fun c u => h.absorb_right hhs ha ht
  case pos => grind
  case header =>
    intro c u hu
    have := h.header (a := c)
    grind
  case free_header =>
    intro c u hu
    have := h.free_header (a := c)
    grind
  case block =>
    intro c u hu
    have := h.block (a := c)
    grind [Seg.len]
  case left_eq_zero =>
    intro c u hu
    have := h.left_eq_zero (a := c)
    grind [Seg.len]
  case right_eq_zero =>
    intro c u hu
    have := h.right_eq_zero (a := c)
    grind [Seg.len]
  case sep =>
    intro c d u v hc hd hcd
    have := h.sep (a := c) (b := d)
    have := h.sep (a := c) (b := a)
    have := h.sep (a := d) (b := a)
    have := h.sep (a := c) (b := s.right)
    have := h.sep (a := d) (b := s.right)
    have := h.header (a := c)
    have := h.header (a := d)
    grind [Seg.len]
  case start =>
    intro l h' hl
    have := h.start hl
    grind
  case blocks => exact h.blocks

end Absorb

/-! ## Segments changing hands, and new blocks -/

/-- A segment is replaced by one of the same extent and with the same neighbours. -/
theorem Wf.replace (h : Wf hs B T) {a : ℕ} {s s' : Seg} (ha : T a = some s) (hlen : s'.len = s.len)
    (hfld : s'.lo = s.lo ∧ s'.hi = s.hi ∧ s'.left = s.left ∧ s'.right = s.right)
    (hhd : hs ≤ s'.hoff) (hfree : s'.free → s'.hoff = hs) :
    Wf hs B (Function.update T a (some s')) := by
  have happ : ∀ c, Function.update T a (some s') c = if c = a then some s' else T c :=
    fun c => Function.update_apply ..
  -- Every segment has one of the same extent and with the same neighbours at its address.
  have old : ∀ {c u}, Function.update T a (some s') c = some u → ∃ v, T c = some v ∧
      u.len = v.len ∧ u.lo = v.lo ∧ u.hi = v.hi ∧ u.left = v.left ∧ u.right = v.right := by
    intro c u hu
    rw [happ] at hu
    split_ifs at hu with h₁
    · obtain rfl := Option.some.inj hu
      exact ⟨s, h₁ ▸ ha, hlen, hfld⟩
    · exact ⟨u, hu, rfl, rfl, rfl, rfl, rfl⟩
  have new : ∀ {c v}, T c = some v → ∃ u, Function.update T a (some s') c = some u ∧
      u.lo = v.lo ∧ u.hi = v.hi ∧ u.left = v.left ∧ u.right = v.right := by
    intro c v hv
    by_cases h₁ : c = a
    · rw [h₁, ha] at hv
      obtain rfl := Option.some.inj hv
      exact ⟨s', by rw [happ, if_pos h₁], hfld⟩
    · exact ⟨v, by rw [happ, if_neg h₁, hv], rfl, rfl, rfl, rfl⟩
  constructor
  case pos => rw [happ, if_neg (h.ne_zero ha).symm, h.pos]
  case header =>
    intro c u hu
    rw [happ] at hu
    split_ifs at hu with h₁
    exacts [Option.some.inj hu ▸ hhd, h.header hu]
  case free_header =>
    intro c u hu
    rw [happ] at hu
    split_ifs at hu with h₁
    exacts [Option.some.inj hu ▸ hfree, h.free_header hu]
  case block =>
    intro c u hu
    obtain ⟨v, hv, e₁, e₂, e₃, -, -⟩ := old hu
    rw [e₁, e₂, e₃]
    exact h.block hv
  case left_eq_zero =>
    intro c u hu
    obtain ⟨v, hv, -, e₂, -, e₄, -⟩ := old hu
    rw [e₂, e₄]
    exact h.left_eq_zero hv
  case right_eq_zero =>
    intro c u hu
    obtain ⟨v, hv, e₁, -, e₃, -, e₅⟩ := old hu
    rw [e₁, e₃, e₅]
    exact h.right_eq_zero hv
  case left =>
    intro c u hu h₀
    obtain ⟨v, hv, -, -, -, e₄, -⟩ := old hu
    obtain ⟨w, hw, hwc⟩ := h.left hv (e₄ ▸ h₀)
    obtain ⟨w', hw', -, -, -, e⟩ := new hw
    exact ⟨w', e₄ ▸ hw', e.trans hwc⟩
  case right =>
    intro c u hu h₀
    obtain ⟨v, hv, e₁, e₂, e₃, -, e₅⟩ := old hu
    obtain ⟨he, w, hw, hl, hlo, hhi⟩ := h.right hv (e₅ ▸ h₀)
    obtain ⟨w', hw', f₁, f₂, f₃, -⟩ := new hw
    rw [e₁, e₂, e₃, e₅]
    exact ⟨he, w', hw', f₃.trans hl, f₁.trans hlo, f₂.trans hhi⟩
  case sep =>
    intro c d u v hu hv hcd
    obtain ⟨u', hu', e, -⟩ := old hu
    obtain ⟨v', hv', e', -⟩ := old hv
    rw [e, e']
    exact h.sep hu' hv' hcd
  case start =>
    intro l h' hl
    obtain ⟨v, hv, hlo, hhi⟩ := h.start hl
    obtain ⟨u, hu, e₁, e₂, -⟩ := new hv
    exact ⟨u, hu, e₁.trans hlo, e₂.trans hhi⟩
  case blocks => exact h.blocks

/-- A segment changing hands keeps its extent. -/
theorem Wf.setFree (h : Wf hs B T) {a : ℕ} {s : Seg} (ha : T a = some s) (f : Bool) :
    Wf hs B (setFree hs T a s f) := by
  have hh := h.header ha
  cases f with
  | false => exact h.replace ha rfl ⟨rfl, rfl, rfl, rfl⟩ hh (by simp)
  | true =>
    refine h.replace ha ?_ ⟨rfl, rfl, rfl, rfl⟩ le_rfl fun _ => rfl
    simp only [Seg.len, ↓reduceIte]
    omega

/-- The payload of a segment in use begins later, its header being longer. -/
theorem Wf.pad (h : Wf hs B T) {a : ℕ} {s : Seg} (ha : T a = some s) (hu : s.free = false) {d : ℕ}
    (hd : d ≤ s.avail) : Wf hs B (pad T a s d) := by
  have hh := h.header ha
  refine h.replace ha ?_ ⟨rfl, rfl, rfl, rfl⟩ (Nat.le_add_right_of_le hh) (by simp [hu])
  simp only [Seg.len]
  omega

/-- The segments of the other blocks are apart from a new block. -/
theorem Wf.apart (h : Wf hs B T) {l r : ℕ} (hB : ∀ b ∈ B, b.2 ≤ l ∨ r ≤ b.1) {c : ℕ} {u : Seg}
    (hc : T c = some u) : c + u.len ≤ l ∨ r ≤ c := by
  obtain ⟨hmem, h₁, h₂⟩ := h.block hc
  exact (hB _ hmem).imp (fun h₃ => h₂.trans h₃) fun h₃ => h₃.trans h₁

/-- No segment begins in a range of its own. -/
theorem Wf.addSeg_fresh (h : Wf hs B T) (hhs : 0 < hs) {l r : ℕ} (hlr : l + hs ≤ r)
    (hB : ∀ b ∈ B, b.2 ≤ l ∨ r ≤ b.1) : T l = none := by
  by_contra hne
  obtain ⟨u, hu⟩ := Option.ne_none_iff_exists'.1 hne
  have h₁ := h.apart hB hu
  have h₂ := h.header hu
  rw [Seg.len] at h₁
  omega

/-- A new block, apart from the others. -/
theorem Wf.addSeg (h : Wf hs B T) (hhs : 0 < hs) {l r : ℕ} (hl : 0 < l) (hlr : l + hs ≤ r)
    (hB : ∀ b ∈ B, b.2 ≤ l ∨ r ≤ b.1) : Wf hs (insert (l, r) B) (addSeg hs T l r) := by
  have happ : ∀ c, Tiling.addSeg hs T l r c =
      if c = l then some ⟨l, r, 0, 0, hs, r - l - hs, true⟩ else T c :=
    fun c => Function.update_apply ..
  have hapart : ∀ {c u}, T c = some u → c + u.len ≤ l ∨ r ≤ c := fun hu => h.apart hB hu
  have hfresh := h.addSeg_fresh hhs hlr hB
  have keep : ∀ {c u}, T c = some u → Tiling.addSeg hs T l r c = some u := by
    intro c u hu
    rw [happ, if_neg (by rintro rfl; rw [hfresh] at hu; cases hu), hu]
  constructor
  case pos => rw [happ, if_neg hl.ne, h.pos]
  case header =>
    intro c u hu
    rw [happ] at hu
    split_ifs at hu with h₁
    exacts [Option.some.inj hu ▸ le_rfl, h.header hu]
  case free_header =>
    intro c u hu
    rw [happ] at hu
    split_ifs at hu with h₁
    exacts [Option.some.inj hu ▸ fun _ => rfl, h.free_header hu]
  case block =>
    intro c u hu
    rw [happ] at hu
    split_ifs at hu with h₁
    · obtain rfl := Option.some.inj hu
      exact ⟨Set.mem_insert _ _, h₁.ge, by simp only [Seg.len]; omega⟩
    · exact ⟨Set.mem_insert_of_mem _ (h.block hu).1, (h.block hu).2⟩
  case left_eq_zero =>
    intro c u hu
    rw [happ] at hu
    split_ifs at hu with h₁
    exacts [Option.some.inj hu ▸ iff_of_true rfl h₁, h.left_eq_zero hu]
  case right_eq_zero =>
    intro c u hu
    rw [happ] at hu
    split_ifs at hu with h₁
    · obtain rfl := Option.some.inj hu
      exact iff_of_true rfl (by simp only [Seg.len]; omega)
    · exact h.right_eq_zero hu
  case left =>
    intro c u hu h₀
    rw [happ] at hu
    split_ifs at hu with h₁
    · exact absurd (Option.some.inj hu ▸ rfl) h₀
    · obtain ⟨t, ht, htc⟩ := h.left hu h₀
      exact ⟨t, keep ht, htc⟩
  case right =>
    intro c u hu h₀
    rw [happ] at hu
    split_ifs at hu with h₁
    · exact absurd (Option.some.inj hu ▸ rfl) h₀
    · obtain ⟨he, t, ht, hrest⟩ := h.right hu h₀
      exact ⟨he, t, keep ht, hrest⟩
  case sep =>
    intro c d u v hu hv hcd
    rw [happ] at hu hv
    -- One of the two may be the new segment, and the other one is apart from the block then.
    split_ifs at hu hv with h₁ h₂ h₃
    · exact absurd (h₁.trans h₂.symm) hcd
    · obtain rfl := Option.some.inj hu
      have := hapart hv
      simp only [Seg.len] at this ⊢
      omega
    · obtain rfl := Option.some.inj hv
      have := hapart hu
      simp only [Seg.len] at this ⊢
      omega
    · exact h.sep hu hv hcd
  case start =>
    intro l' r' hl'
    rcases hl' with e | hl'
    · obtain ⟨rfl, rfl⟩ := Prod.mk.inj e
      exact ⟨_, (happ _).trans (if_pos rfl), rfl, rfl⟩
    · obtain ⟨u, hu, hlo, hhi⟩ := h.start hl'
      exact ⟨u, keep hu, hlo, hhi⟩
  case blocks =>
    intro b b' hb hb' hne
    rcases hb with rfl | hb <;> rcases hb' with rfl | hb'
    · exact absurd rfl hne
    · exact (hB _ hb').symm
    · exact hB _ hb
    · exact h.blocks hb hb' hne

/-! ## Coalesced tilings -/

/-- After a segment is replaced by one in use, the free ones are free ones of before. -/
theorem of_update_used {a c : ℕ} {s u : Seg} (hs : s.free = false)
    (hu : Function.update T a (some s) c = some u) (huf : u.free) : c ≠ a ∧ T c = some u := by
  by_cases hca : c = a
  · subst hca
    rw [Function.update_self] at hu
    rw [← Option.some.inj hu, hs] at huf
    cases huf
  · exact ⟨hca, by rwa [Function.update_of_ne hca] at hu⟩

/-- A segment is replaced by one in use. -/
theorem Coalesced.use (hc : Coalesced T) (a : ℕ) {s : Seg} (hs : s.free = false) :
    Coalesced (Function.update T a (some s)) := fun _ _ _ hu hv huf hvf =>
  hc (of_update_used hs hu huf).2 (of_update_used hs hv hvf).2 huf hvf

/-- No two free neighbours come from taking a segment. -/
theorem Coalesced.take (hc : Coalesced T) (a : ℕ) (s : Seg) :
    Coalesced (setFree hs T a s false) := hc.use a rfl

/-- A segment becoming free between neighbours in use. -/
theorem Coalesced.release (hc : Coalesced T) (h : Wf hs B T) (hhs : 0 < hs) {a : ℕ} {s : Seg}
    (ha : T a = some s) (hl : ∀ t, T s.left = some t → t.free = false)
    (hr : ∀ t, T s.right = some t → t.free = false) : Coalesced (setFree hs T a s true) := by
  intro c u v hu hv huf hvf
  simp only [Tiling.setFree, Function.update_apply, ↓reduceIte] at hu hv
  split_ifs at hu hv with h₁ h₂ h₂
  · obtain rfl := Option.some.inj hu
    exact h.right_ne hhs ha h₂
  · obtain rfl := Option.some.inj hu
    rw [hr v hv] at hvf
    cases hvf
  · -- `c` is the left neighbour of `a`.
    obtain ⟨-, htl, -⟩ := h.of_right hu (h₂ ▸ ha)
    rw [hl u (htl ▸ hu)] at huf
    cases huf
  · exact hc hu hv huf hvf

section Split

variable (hc : Coalesced T) (h : Wf hs B T) (hhs : 0 < hs) {a : ℕ} {s : Seg}
    (ha : T a = some s) {k : ℕ}
  (hk : k + hs ≤ s.avail)

include h hhs ha hk

/-- Neighbours after a segment is cut: its two parts, the second part and what comes after it, or
    segments that were neighbours before. -/
theorem Wf.split_pair {c : ℕ} {u v : Seg} (hu : Tiling.split hs T a s k c = some u)
    (hv : Tiling.split hs T a s k u.right = some v) :
    (c = a ∧ u.free = s.free ∧ u.right = a + s.hoff + k) ∨
    (c = a + s.hoff + k ∧ ∃ t, T s.right = some t ∧ v.free = t.free) ∨
    ∃ u' v', T c = some u' ∧ T u'.right = some v' ∧ u.free = u'.free ∧ v.free = v'.free := by
  have happ := h.split_apply hhs ha hk
  -- A segment other than the new one is as free as it was.
  have old : ∀ {d w}, d ≠ a + s.hoff + k → Tiling.split hs T a s k d = some w →
      ∃ w', T d = some w' ∧ w.free = w'.free := by
    intro d w hd hw
    rw [happ] at hw
    split_ifs at hw with h₁ h₂
    · exact ⟨s, h₁ ▸ ha, by rw [← Option.some.inj hw]⟩
    · obtain ⟨w', hw', rfl⟩ := Option.map_eq_some_iff.1 hw
      exact ⟨w', hw', rfl⟩
    · exact ⟨w, hw, rfl⟩
  have hfresh := h.split_fresh hhs ha hk
  rw [happ] at hu
  split_ifs at hu with h₁ h₂ h₃
  · obtain rfl := Option.some.inj hu
    exact .inl ⟨h₁, rfl, rfl⟩
  · obtain rfl := Option.some.inj hu
    exact .inr (.inl ⟨h₂, old (h.split_ne_right hhs ha hk) hv⟩)
  · obtain ⟨t, ht, rfl⟩ := Option.map_eq_some_iff.1 hu
    have hne : t.right ≠ a + s.hoff + k := fun e => by
      obtain ⟨-, w, hw, -⟩ := h.right ht fun e₀ => by
        have := h.header ha
        omega
      rw [e, hfresh] at hw
      cases hw
    obtain ⟨v', hv', hvf⟩ := old hne hv
    exact .inr (.inr ⟨t, v', ht, hv', rfl, hvf⟩)
  · have hne : u.right ≠ a + s.hoff + k := fun e => by
      obtain ⟨-, w, hw, -⟩ := h.right hu fun e₀ => by
        have := h.header ha
        omega
      rw [e, hfresh] at hw
      cases hw
    obtain ⟨v', hv', hvf⟩ := old hne hv
    exact .inr (.inr ⟨u, v', hu, hv', rfl, hvf⟩)

include hc

/-- A segment cut, the first part of it then being used. -/
theorem Coalesced.split_take (hf : s.free) (s' : Seg) :
    Coalesced (setFree hs (split hs T a s k) a s' false) := by
  intro c u v hu hv huf hvf
  obtain ⟨hca, hu⟩ := of_update_used rfl hu huf
  obtain ⟨-, hv⟩ := of_update_used rfl hv hvf
  rcases h.split_pair hhs ha hk hu hv with ⟨h₁, -⟩ | ⟨-, t, ht, e⟩ | ⟨u', v', hu', hv', e, e'⟩
  · exact hca h₁
  · exact hc ha ht hf (e ▸ hvf)
  · exact hc hu' hv' (e ▸ huf) (e' ▸ hvf)

/-- A segment cut, the second part of it then being used. -/
theorem Coalesced.split_use (s' : Seg) :
    Coalesced (setFree hs (split hs T a s k) (a + s.hoff + k) s' false) := by
  intro c u v hu hv huf hvf
  obtain ⟨hcb, hu⟩ := of_update_used rfl hu huf
  obtain ⟨hrb, hv⟩ := of_update_used rfl hv hvf
  rcases h.split_pair hhs ha hk hu hv with ⟨-, -, h₁⟩ | ⟨h₁, -⟩ | ⟨u', v', hu', hv', e, e'⟩
  · exact hrb h₁
  · exact hcb h₁
  · exact hc hu' hv' (e ▸ huf) (e' ▸ hvf)

/-- A segment in use is cut, after which comes no free one. -/
theorem Coalesced.split_used (hu : s.free = false) (hr : ∀ t, T s.right = some t → t.free = false) :
    Coalesced (split hs T a s k) := by
  intro c u v hcu hv huf hvf
  rcases h.split_pair hhs ha hk hcu hv with ⟨-, e, -⟩ | ⟨-, t, ht, e⟩ | ⟨u', v', hu', hv', e, e'⟩
  · rw [e, hu] at huf
    cases huf
  · rw [e, hr t ht] at hvf
    cases hvf
  · exact hc hu' hv' (e ▸ huf) (e' ▸ hvf)

end Split

/-- A segment taking over its right neighbour, whose own is then its neighbour. -/
theorem Coalesced.absorb (hc : Coalesced T) (h : Wf hs B T) (hhs : 0 < hs) {a : ℕ} {s t : Seg}
    (ha : T a = some s) (ht : T s.right = some t)
    (hr : ∀ u, T t.right = some u → s.free → ¬u.free) : Coalesced (absorb T a s t) := by
  intro c u v hu hv huf hvf
  -- Both neighbours have the same freedom as segments of `T` that were neighbours, `a` apart.
  have old : ∀ {d w}, Tiling.absorb T a s t d = some w → ∃ w', T d = some w' ∧ w.free = w'.free ∧
      (d ≠ a → w.right = w'.right) := by
    intro d w hw
    rw [h.absorb_apply hhs ha ht] at hw
    split_ifs at hw with h₁ h₂ h₃
    · exact ⟨s, h₁ ▸ ha, by rw [← Option.some.inj hw], fun e => absurd h₁ e⟩
    · obtain ⟨w', hw', rfl⟩ := Option.map_eq_some_iff.1 hw
      exact ⟨w', hw', rfl, fun _ => rfl⟩
    · exact ⟨w, hw, rfl, fun _ => rfl⟩
  obtain ⟨u', hu', e₁, e₂⟩ := old hu
  obtain ⟨v', hv', e₃, -⟩ := old hv
  by_cases hca : c = a
  · subst hca
    rw [h.absorb_self hhs ha ht] at hu
    obtain rfl := Option.some.inj hu
    exact hr v' hv' huf (e₃ ▸ hvf)
  · rw [e₂ hca] at hv'
    exact hc hu' hv' (e₁ ▸ huf) (e₃ ▸ hvf)

/-! ## The segments in use -/

/-- The lengths of the header and of the payload of the segment in use at an address, if any. -/
def used (T : Tiling) (a : ℕ) : Option (ℕ × ℕ) :=
  (T a).bind fun s => if s.free then none else some (s.hoff, s.avail)

/-- A used block is a segment that is not free. -/
theorem used_eq_some {a : ℕ} {p : ℕ × ℕ} :
    T.used a = some p ↔ ∃ s, T a = some s ∧ s.free = false ∧ s.hoff = p.1 ∧ s.avail = p.2 := by
  rw [used, Option.bind_eq_some_iff]
  refine exists_congr fun s => and_congr_right fun _ => ?_
  cases s.free <;> simp [Prod.ext_iff]

/-- A free segment is none. -/
theorem used_of_free {a : ℕ} {s : Seg} (ha : T a = some s) (hf : s.free) : T.used a = none := by
  simp [used, ha, hf]

/-- A segment in use is one. -/
theorem used_of_used {a : ℕ} {s : Seg} (ha : T a = some s) (hf : s.free = false) :
    T.used a = some (s.hoff, s.avail) := by
  simp [used, ha, hf]

/-- What is none is free. -/
theorem free_of_used_eq_none {a : ℕ} {s : Seg} (ha : T a = some s) (h : T.used a = none) :
    s.free := by
  by_contra hf
  rw [used_of_used ha (by simpa using hf)] at h
  cases h

/-- Of one segment. -/
theorem used_update (T : Tiling) (a : ℕ) (x : Option Seg) :
    used (Function.update T a x) = Function.update T.used a
      (x.bind fun s => if s.free then none else some (s.hoff, s.avail)) := by
  funext c
  by_cases hc : c = a <;> simp [used, hc]

/-- The left neighbours do not matter. -/
theorem used_setLeft (T : Tiling) (r v : ℕ) : used (T.setLeft r v) = T.used := by
  funext c
  simp only [used, setLeft_apply]
  split_ifs
  · cases T c <;> rfl
  · rfl

/-- A block more. -/
theorem used_take (T : Tiling) (a : ℕ) (s : Seg) :
    used (setFree hs T a s false) = Function.update T.used a (some (s.hoff, s.avail)) := by
  rw [setFree, used_update]
  rfl

/-- A block less. -/
theorem used_release (T : Tiling) (a : ℕ) (s : Seg) :
    used (setFree hs T a s true) = Function.update T.used a none := by
  rw [setFree, used_update]
  rfl

/-- A header is moved up. -/
theorem used_pad (T : Tiling) (a : ℕ) {s : Seg} (hu : s.free = false) (d : ℕ) :
    used (pad T a s d) = Function.update T.used a (some (s.hoff + d, s.avail - d)) := by
  rw [pad, used_update]
  simp [hu]

/-- The new segment of a split is free, and the other one is in use if it was. -/
theorem Wf.used_split_eq (h : Wf hs B T) (hhs : 0 < hs) {a : ℕ} {s : Seg}
    (ha : T a = some s) {k : ℕ}
    (hk : k + hs ≤ s.avail) : used (Tiling.split hs T a s k) =
      Function.update T.used a (if s.free then none else some (s.hoff, k)) := by
  have hh := h.header ha
  have hfresh : T.used (a + s.hoff + k) = none := by
    rw [used, h.split_fresh hhs ha hk, Option.bind_none]
  rw [Tiling.split, used_setLeft, used_update, used_update]
  simp only [Option.bind_some, ↓reduceIte]
  rw [Function.update_eq_self_iff, Function.update_of_ne (by omega), hfresh]

/-- Splitting a free segment. -/
theorem Wf.used_split (h : Wf hs B T) (hhs : 0 < hs) {a : ℕ} {s : Seg} (ha : T a = some s)
    (hf : s.free) {k : ℕ} (hk : k + hs ≤ s.avail) : used (Tiling.split hs T a s k) = T.used := by
  rw [h.used_split_eq hhs ha hk, if_pos hf]
  exact Function.update_eq_self_iff.2 (used_of_free ha hf).symm

/-- The blocks after a merge. -/
theorem used_absorb (T : Tiling) (a : ℕ) (s t : Seg) :
    used (absorb T a s t) = Function.update (Function.update T.used s.right none) a
      (if s.free then none else some (s.hoff, s.avail + t.avail + t.hoff)) := by
  rw [absorb, used_setLeft, used_update, used_update]
  rfl

/-- A new range has no blocks. -/
theorem used_addSeg {l : ℕ} (hl : T l = none) (r : ℕ) : used (addSeg hs T l r) = T.used := by
  have : T.used l = none := by rw [used, hl, Option.bind_none]
  rw [addSeg, used_update]
  exact Function.update_eq_self_iff.2 this.symm

section Unique

variable {T' : Tiling} (h : Wf hs B T) (h' : Wf hs B T') (hhs : 0 < hs)

include h hhs

/-- Two segments of the same address lie in the same block. -/
theorem Wf.block_unique (h' : Wf hs B T') {a : ℕ} {s s' : Seg} (ha : T a = some s)
    (ha' : T' a = some s') : s.lo = s'.lo ∧ s.hi = s'.hi := by
  obtain ⟨hb, h₁, h₂⟩ := h.block ha
  obtain ⟨hb', h₁', h₂'⟩ := h'.block ha'
  have hh := h.header ha
  have hh' := h'.header ha'
  by_contra hne
  have := h.blocks hb hb' fun e => hne (Prod.mk.inj e)
  simp only [Seg.len] at h₂ h₂'
  omega

include h'

/-- What follows a segment of the same length in both tilings starts at the same address. -/
theorem Wf.right_unique {a : ℕ} {s t t' : Seg} (ha : T a = some s) (ht : T s.left = some t)
    (ht' : T' s.left = some t') (hlen : t'.len = t.len) :
    t'.right = a ∧ ∃ s', T' a = some s' ∧ s'.left = s.left := by
  obtain ⟨-, hend, -, hhi⟩ := h.of_left ha ht
  obtain ⟨-, hhi'⟩ := h.block_unique hhs h' ht ht'
  have hr₀ : t'.right ≠ 0 := by
    have hb := (h.block ha).2.2
    have hh := h.header ha
    rw [ne_eq, h'.right_eq_zero ht', hlen, ← hhi', hhi, ← hend]
    rw [Seg.len] at hb
    omega
  obtain ⟨he, s', hs', hleft, -⟩ := h'.right ht' hr₀
  rw [hlen, ← hend] at he
  exact ⟨he, s', he ▸ hs', hleft⟩

/-- A segment is there in the other tiling, too, if the one on its left is, if any. -/
theorem Wf.exists_of_left {a : ℕ} {s : Seg} (ha : T a = some s)
    (hleft : ∀ t, T s.left = some t → T'.used s.left = some (t.hoff, t.avail)) :
    ∃ s', T' a = some s' := by
  by_cases h₀ : s.left = 0
  · obtain ⟨s', hs', -⟩ := h'.start (h.block ha).1
    exact ⟨s', (h.left_eq_zero ha).1 h₀ ▸ hs'⟩
  · obtain ⟨t, ht, -⟩ := h.left ha h₀
    obtain ⟨t', ht', -, h₁, h₂⟩ := used_eq_some.1 (hleft t ht)
    exact (h.right_unique h' hhs ha ht ht' (by rw [Seg.len, h₁, h₂, Seg.len])).2.imp fun _ hs =>
      hs.1

variable (hc : Coalesced T) (hsame : T.used = T'.used)

include hc hsame

/-- A free segment starts at the end of a segment in use, or of its block: the other tiling has a
    free segment there too. -/
theorem Wf.exists_free {a : ℕ} {s : Seg} (ha : T a = some s) (hf : s.free) :
    ∃ s', T' a = some s' ∧ s'.free := by
  obtain ⟨s', hs'⟩ := h.exists_of_left h' hhs ha fun t ht => by
    obtain ⟨hta, -⟩ := h.of_left ha ht
    have htf : t.free = false := by
      by_contra hne
      exact hc ht (hta ▸ ha) (by simpa using hne) hf
    exact hsame ▸ used_of_used ht htf
  refine ⟨s', hs', ?_⟩
  by_contra hne
  obtain ⟨u, hu, huf, -⟩ := used_eq_some.1 (hsame.symm ▸ used_of_used hs' (by simpa using hne))
  rw [ha] at hu
  rw [← Option.some.inj hu, hf] at huf
  cases huf

/-- A free segment is not shorter than the free segment of the other tiling there: it would end at
    a segment in use. -/
theorem Wf.free_len_le {a : ℕ} {s s' : Seg} (ha : T a = some s) (hf : s.free)
    (ha' : T' a = some s') : s'.len ≤ s.len := by
  by_contra hlt
  obtain ⟨-, hhi⟩ := h.block_unique hhs h' ha ha'
  have hb' := (h'.block ha').2.2
  have hr₀ : s.right ≠ 0 := by
    rw [ne_eq, h.right_eq_zero ha]
    omega
  obtain ⟨he, t, ht, -⟩ := h.right ha hr₀
  have htf : t.free = false := by
    by_contra hne
    exact hc ha ht hf (by simpa using hne)
  obtain ⟨t', ht', -⟩ := used_eq_some.1 (hsame ▸ used_of_used ht htf)
  have hlen : 0 < s.len := by have := h.header ha; rw [Seg.len]; omega
  rw [he, h'.none_of_inside hhs ha' (by omega) (by omega)] at ht'
  cases ht'

/-- **The segments in use determine the free ones**: two coalesced tilings of the same blocks with
    the same segments in use have the same free segments. -/
theorem Wf.free_unique (hc' : Coalesced T') {a : ℕ} {s : Seg} (ha : T a = some s) (hf : s.free) :
    ∃ s', T' a = some s' ∧ s'.free ∧ s'.avail = s.avail := by
  obtain ⟨s', ha', hf'⟩ := h.exists_free h' hhs hc hsame ha hf
  have h₁ := h.free_len_le h' hhs hc hsame ha hf ha'
  have h₂ := h'.free_len_le h hhs hc' hsame.symm ha' hf' ha
  have h₃ := h.free_header ha hf
  have h₄ := h'.free_header ha' hf'
  simp only [Seg.len] at h₁ h₂
  exact ⟨s', ha', hf', by omega⟩

end Unique

end Tiling

end DemoOs
