import DemoOs.Lib.Tiling

/-!
# Carving a range out of a tiling

The first `d` addresses of a segment leave the tiling. The segments of its block on the left of them
are a block of their own then, and so are those on the right of them; the rest of the segment is the
first one of these, if it has room for a header and a payload, else it is lost.
-/

namespace DemoOs

namespace Tiling

variable {hs : ℕ} {B : Set (ℕ × ℕ)} {T : Tiling} {a d : ℕ} {s : Seg}

/-- What is left of the segment `s` without its first `d` addresses has room for a segment. -/
def HasRest (hs : ℕ) (s : Seg) (d : ℕ) : Prop := hs + d < s.len

instance (hs : ℕ) (s : Seg) (d : ℕ) : Decidable (HasRest hs s d) :=
  inferInstanceAs (Decidable (_ < _))

/-- Where the block on the right of the range carved starts. -/
def restStart (hs a : ℕ) (s : Seg) (d : ℕ) : ℕ := if HasRest hs s d then a + d else a + s.len

/-- What is left of the segment `s` at `a`. -/
def rest (hs a : ℕ) (s : Seg) (d : ℕ) : Seg := ⟨a + d, s.hi, 0, s.right, hs, s.len - d - hs, true⟩

/-- A segment on the left of the range carved. -/
def keepLeft (a : ℕ) (u : Seg) : Seg :=
  { u with hi := a, right := if u.right = a then 0 else u.right }

/-- A segment on the right of the range carved. -/
def keepRight (hs a : ℕ) (s : Seg) (d : ℕ) (u : Seg) : Seg :=
  { u with
    lo := restStart hs a s d
    left := if u.left = a then if HasRest hs s d then a + d else 0 else u.left }

/-- The first `d` addresses of the segment `s` at `a` leave the tiling. -/
def carve (hs : ℕ) (T : Tiling) (a : ℕ) (s : Seg) (d : ℕ) : Tiling := fun c =>
  if HasRest hs s d ∧ c = a + d then some (rest hs a s d)
  else if c = a then none
  else (T c).map fun u =>
    if u.lo ≠ s.lo then u else if c < a then keepLeft a u else keepRight hs a s d u

/-- The blocks of a tiling a range is carved out of. -/
def carveBlocks (hs : ℕ) (B : Set (ℕ × ℕ)) (a : ℕ) (s : Seg) (d : ℕ) : Set (ℕ × ℕ) :=
  {b | b ∈ B ∧ b.1 ≠ s.lo ∨ b = (s.lo, a) ∧ s.lo < a ∨
    b = (restStart hs a s d, s.hi) ∧ restStart hs a s d < s.hi}

@[simp] theorem keepLeft_len (a : ℕ) (u : Seg) : (keepLeft a u).len = u.len := rfl

@[simp] theorem keepRight_len (hs a : ℕ) (s : Seg) (d : ℕ) (u : Seg) :
    (keepRight hs a s d u).len = u.len := rfl

theorem rest_len {hs a : ℕ} {s : Seg} {d : ℕ} (hr : HasRest hs s d) :
    a + d + (rest hs a s d).len = a + s.len := by
  rw [HasRest, Seg.len] at hr
  simp only [rest, Seg.len]
  omega

theorem carve_rest (T : Tiling) (hr : HasRest hs s d) :
    carve hs T a s d (a + d) = some (rest hs a s d) :=
  if_pos ⟨hr, rfl⟩

/-- Blocks starting at one address are the same. -/
theorem Wf.hi_eq (h : Wf hs B T) (ha : T a = some s) {c : ℕ} {u : Seg} (hc : T c = some u)
    (hlo : u.lo = s.lo) : u.hi = s.hi := by
  obtain ⟨t, ht, -, hhi⟩ := h.start (h.block ha).1
  obtain ⟨t', ht', -, hhi'⟩ := h.start (h.block hc).1
  rw [hlo, ht] at ht'
  rw [← hhi, ← hhi', Option.some.inj ht']

/-- Every address of a block is in one of its segments. -/
theorem Wf.exists_mem (h : Wf hs B T) (hhs : 0 < hs) {c x : ℕ} {u : Seg} (hc : T c = some u)
    (hcx : c ≤ x)
    (hx : x < u.hi) : ∃ c' u', T c' = some u' ∧ u'.lo = u.lo ∧ c' ≤ x ∧ x < c' + u'.len := by
  induction hk : x - c using Nat.strong_induction_on generalizing c u with | _ k ih
  by_cases hlt : x < c + u.len
  · exact ⟨c, u, hc, rfl, hcx, hlt⟩
  have hlen : hs ≤ u.len := (h.header hc).trans (Nat.le_add_right ..)
  have h₀ : u.right ≠ 0 := by
    intro h₀
    have := (h.right_eq_zero hc).1 h₀
    omega
  obtain ⟨he, t, ht, -, hlo, hhi⟩ := h.right hc h₀
  obtain ⟨c', u', hc', hlo', hmem⟩ := ih (x - u.right) (by omega) ht (by omega) (hhi ▸ hx) rfl
  exact ⟨c', u', hc', hlo'.trans hlo, hmem⟩

/-- Other blocks are apart from a segment. -/
theorem Wf.block_apart (h : Wf hs B T) (hhs : 0 < hs) (ha : T a = some s) {l r : ℕ}
    (hb : (l, r) ∈ B)
    (hne : l ≠ s.lo) {x : ℕ} (hx : a ≤ x) (hx' : x < a + s.len) : x < l ∨ r ≤ x := by
  by_contra hno
  rw [not_or, not_lt, not_le] at hno
  obtain ⟨t, ht, hlo, hhi⟩ := h.start hb
  obtain ⟨c, u, hc, hlo', hcx, hxc⟩ := h.exists_mem hhs ht hno.1 (hhi ▸ hno.2)
  have hca : c ≠ a := by
    rintro rfl
    rw [ha] at hc
    exact hne (by rw [Option.some.inj hc, hlo', hlo])
  have := h.sep hc ha hca
  omega

section Carve

variable (h : Wf hs B T) (hhs : 0 < hs) (ha : T a = some s) (hd : 0 < d) (hds : d < s.len)

include h hhs ha hd hds

theorem Wf.carve_keep {c : ℕ} {u : Seg} (hc : T c = some u) (hca : c ≠ a) :
    carve hs T a s d c =
      some (if u.lo ≠ s.lo then u else if c < a then keepLeft a u else keepRight hs a s d u) := by
  rw [carve, if_neg, if_neg hca, hc]
  · rfl
  · rintro ⟨hr, rfl⟩
    rw [h.none_of_inside hhs ha (by omega) (by omega)] at hc
    cases hc

theorem Wf.carve_other {c : ℕ} {u : Seg} (hc : T c = some u) (hlo : u.lo ≠ s.lo) :
    carve hs T a s d c = some u := by
  rw [h.carve_keep hhs ha hd hds hc, if_pos hlo]
  rintro rfl
  rw [ha] at hc
  exact hlo (Option.some.inj hc ▸ rfl)

theorem Wf.carve_left {c : ℕ} {u : Seg} (hc : T c = some u) (hlo : u.lo = s.lo) (hca : c < a) :
    carve hs T a s d c = some (keepLeft a u) := by
  rw [h.carve_keep hhs ha hd hds hc hca.ne, if_neg (not_not_intro hlo), if_pos hca]

theorem Wf.carve_right {c : ℕ} {u : Seg} (hc : T c = some u) (hlo : u.lo = s.lo) (hca : a < c) :
    carve hs T a s d c = some (keepRight hs a s d u) := by
  rw [h.carve_keep hhs ha hd hds hc hca.ne', if_neg (not_not_intro hlo), if_neg (Nat.lt_asymm hca)]

/-- What the segments are afterwards: the rest of the one carved, or one that was there before, in
    another block, or on the left or on the right of the range in the same one. -/
theorem Wf.carve_cases {c : ℕ} {u' : Seg} (hc : carve hs T a s d c = some u') :
    (HasRest hs s d ∧ c = a + d ∧ u' = rest hs a s d) ∨
    ∃ u, T c = some u ∧ c ≠ a ∧ ((u.lo ≠ s.lo ∧ u' = u) ∨
      (u.lo = s.lo ∧ c + u.len ≤ a ∧ u' = keepLeft a u) ∨
      (u.lo = s.lo ∧ a + s.len ≤ c ∧ u' = keepRight hs a s d u)) := by
  by_cases hr : HasRest hs s d ∧ c = a + d
  · rw [carve, if_pos hr] at hc
    exact .inl ⟨hr.1, hr.2, (Option.some.inj hc).symm⟩
  by_cases hca : c = a
  · rw [carve, if_neg hr, if_pos hca] at hc
    cases hc
  obtain ⟨u, hu⟩ : ∃ u, T c = some u := by
    rw [carve, if_neg hr, if_neg hca] at hc
    exact (Option.map_eq_some_iff.1 hc).imp fun _ hu => hu.1
  refine .inr ⟨u, hu, hca, ?_⟩
  have hh := h.header hu
  have hsep := h.sep hu ha hca
  by_cases hlo : u.lo = s.lo
  · rcases Nat.lt_or_gt_of_ne hca with hlt | hgt
    · rw [h.carve_left hhs ha hd hds hu hlo hlt] at hc
      exact .inr (.inl ⟨hlo, by omega, (Option.some.inj hc).symm⟩)
    · rw [h.carve_right hhs ha hd hds hu hlo hgt] at hc
      rw [Seg.len] at hsep
      exact .inr (.inr ⟨hlo, by omega, (Option.some.inj hc).symm⟩)
  · rw [h.carve_other hhs ha hd hds hu hlo] at hc
    exact .inl ⟨hlo, (Option.some.inj hc).symm⟩

omit hhs hd hds in
/-- The last segment on the left of the range ends where the range starts. -/
theorem Wf.keepLeft_right_eq_zero {c : ℕ} {u : Seg} (hc : T c = some u) (hlo : u.lo = s.lo)
    (hle : c + u.len ≤ a) (hlen : 0 < s.len) : (keepLeft a u).right = 0 ↔ c + u.len = a := by
  have hb := (h.block ha).2.2
  have hhi := h.hi_eq ha hc hlo
  by_cases e : u.right = a
  · exact iff_of_true (if_pos e) ((h.of_right hc (e ▸ ha)).1.symm.trans e)
  · rw [keepLeft]
    simp only [if_neg e]
    have h₀ : u.right ≠ 0 := by
      intro h₀
      have := (h.right_eq_zero hc).1 h₀
      omega
    exact iff_of_false h₀ fun he => e ((h.right hc h₀).1.trans he)

omit hd hds in
/-- The neighbour on the left of a segment on the right of the range. -/
theorem Wf.keepRight_left {c : ℕ} {u : Seg} (hc : T c = some u) (hlo : u.lo = s.lo)
    (hle : a + s.len ≤ c) :
    (u.left = a ↔ c = a + s.len) ∧ (u.left ≠ a → u.left ≠ 0 ∧ a + s.len ≤ u.left) := by
  have hh := h.header ha
  have hb := (h.block ha).2.1
  have hlen : hs ≤ s.len := hh.trans (Nat.le_add_right ..)
  have h₀ : u.left ≠ 0 := by
    intro h₀
    have := (h.left_eq_zero hc).1 h₀
    omega
  obtain ⟨t, ht, -, he, -⟩ := h.left_end hc h₀
  have ht' : hs ≤ t.len := (h.header ht).trans (Nat.le_add_right ..)
  by_cases e : u.left = a
  · rw [e, ha] at ht
    obtain rfl := Option.some.inj ht
    exact ⟨iff_of_true e (e ▸ he), fun hne => absurd e hne⟩
  · have hsep := h.sep ht ha e
    exact ⟨iff_of_false e (by omega), fun _ => ⟨h₀, by omega⟩⟩

theorem Wf.carve_leftOf {c : ℕ} {u' : Seg} (hc : Tiling.carve hs T a s d c = some u')
    (h₀ : u'.left ≠ 0) :
    ∃ t, Tiling.carve hs T a s d u'.left = some t ∧ t.right = c := by
  rcases h.carve_cases hhs ha hd hds hc with
    ⟨-, -, rfl⟩ | ⟨u, hu, hca, ⟨hlo, rfl⟩ | ⟨hlo, hle, rfl⟩ | ⟨hlo, hle, rfl⟩⟩
  · exact absurd rfl h₀
  · obtain ⟨t, ht, htc, -, hlo', -⟩ := h.left_end hu h₀
    exact ⟨t, h.carve_other hhs ha hd hds ht (hlo' ▸ hlo), htc⟩
  · obtain ⟨t, ht, htc, he, hlo', -⟩ := h.left_end hu h₀
    have hlen : hs ≤ t.len := (h.header ht).trans (Nat.le_add_right ..)
    have hlen' : hs ≤ u.len := (h.header hu).trans (Nat.le_add_right ..)
    have hlt : u.left < a := by omega
    refine ⟨keepLeft a t, h.carve_left hhs ha hd hds ht (hlo'.trans hlo) hlt, ?_⟩
    rw [keepLeft]
    simp only [htc, if_neg hca]
  · obtain ⟨h₁, h₂⟩ := h.keepRight_left hhs ha hu hlo hle
    by_cases e : u.left = a
    · simp only [keepRight, if_pos e] at h₀ ⊢
      by_cases hr : HasRest hs s d
      · have ht : T u.left = some s := by rw [e, ha]
        rw [if_pos hr]
        exact ⟨_, carve_rest T hr, (h.of_left hu ht).1⟩
      · rw [if_neg hr] at h₀
        exact absurd rfl h₀
    · obtain ⟨h₃, h₄⟩ := h₂ e
      obtain ⟨t, ht, htc, -, hlo', -⟩ := h.left_end hu h₃
      simp only [keepRight, if_neg e]
      exact ⟨_, h.carve_right hhs ha hd hds ht (hlo'.trans hlo) (by omega), htc⟩

theorem Wf.carve_rightOf {c : ℕ} {u' : Seg} (hc : Tiling.carve hs T a s d c = some u')
    (h₀ : u'.right ≠ 0) : u'.right = c + u'.len ∧
      ∃ t, Tiling.carve hs T a s d u'.right = some t ∧ t.left = c ∧ t.lo = u'.lo ∧
        t.hi = u'.hi := by
  have hlen : hs ≤ s.len := (h.header ha).trans (Nat.le_add_right ..)
  rcases h.carve_cases hhs ha hd hds hc with
    ⟨hr, rfl, rfl⟩ | ⟨u, hu, hca, ⟨hlo, rfl⟩ | ⟨hlo, hle, rfl⟩ | ⟨hlo, hle, rfl⟩⟩
  · obtain ⟨he, t, ht, hta, hlo', hhi'⟩ := h.right ha h₀
    have hgt : a < s.right := by omega
    rw [rest_len hr]
    refine ⟨he, _, h.carve_right hhs ha hd hds ht hlo' hgt, ?_, if_pos hr, hhi'⟩
    simp only [keepRight, hta, if_true, if_pos hr]
  · obtain ⟨he, t, ht, htc, hlo', hhi'⟩ := h.right hu h₀
    exact ⟨he, t, h.carve_other hhs ha hd hds ht (hlo' ▸ hlo), htc, hlo', hhi'⟩
  · have hua : u.right ≠ a := fun e => h₀ (if_pos e)
    have hright : (keepLeft a u).right = u.right := if_neg hua
    rw [hright] at h₀ ⊢
    obtain ⟨he, t, ht, htc, hlo', hhi'⟩ := h.right hu h₀
    exact ⟨he, _, h.carve_left hhs ha hd hds ht (hlo'.trans hlo) (by omega), htc, hlo', rfl⟩
  · obtain ⟨he, t, ht, htc, hlo', hhi'⟩ := h.right hu h₀
    have hgt : a < u.right := by omega
    refine ⟨he, _, h.carve_right hhs ha hd hds ht (hlo'.trans hlo) hgt, ?_, rfl, hhi'⟩
    simp only [keepRight, htc, if_neg hca]

theorem Wf.carve_start {l r : ℕ} (hb : (l, r) ∈ carveBlocks hs B a s d) :
    ∃ t, Tiling.carve hs T a s d l = some t ∧ t.lo = l ∧ t.hi = r := by
  have hself := h.block ha
  rcases hb with ⟨hb, hne⟩ | ⟨hb, hlt⟩ | ⟨hb, hlt⟩
  · obtain ⟨t, ht, hlo, hhi⟩ := h.start hb
    exact ⟨t, h.carve_other hhs ha hd hds ht (hlo ▸ hne), hlo, hhi⟩
  · obtain ⟨rfl, rfl⟩ := Prod.mk.inj hb
    obtain ⟨t, ht, hlo, -⟩ := h.start hself.1
    exact ⟨_, h.carve_left hhs ha hd hds ht hlo hlt, hlo, rfl⟩
  · obtain ⟨rfl, rfl⟩ := Prod.mk.inj hb
    by_cases hr : HasRest hs s d
    · rw [restStart, if_pos hr]
      exact ⟨_, carve_rest T hr, rfl, rfl⟩
    · rw [restStart, if_neg hr] at hlt ⊢
      have hlen : hs ≤ s.len := (h.header ha).trans (Nat.le_add_right ..)
      have h₀ : s.right ≠ 0 := by
        intro h₀
        have := (h.right_eq_zero ha).1 h₀
        omega
      obtain ⟨he, t, ht, -, hlo, hhi⟩ := h.right ha h₀
      rw [he] at ht
      exact ⟨_, h.carve_right hhs ha hd hds ht hlo (by omega), if_neg hr, hhi⟩

theorem Wf.carve : Wf hs (carveBlocks hs B a s d) (carve hs T a s d) := by
  have hcases := fun {c : ℕ} {u' : Seg} (hc : Tiling.carve hs T a s d c = some u') =>
    h.carve_cases hhs ha hd hds hc
  have hself := h.block ha
  have hlen : hs ≤ s.len := (h.header ha).trans (Nat.le_add_right ..)
  have hstart : a + d ≤ restStart hs a s d ∧ restStart hs a s d ≤ a + s.len := by
    rw [restStart]
    split_ifs <;> omega
  constructor
  case pos =>
    have hne := h.ne_zero ha
    rw [Tiling.carve, if_neg (by omega), if_neg (by omega), h.pos]
    rfl
  case header =>
    intro c u' hc
    rcases hcases hc with ⟨-, -, rfl⟩ | ⟨u, hu, -, ⟨-, rfl⟩ | ⟨-, -, rfl⟩ | ⟨-, -, rfl⟩⟩
    exacts [le_rfl, h.header hu, (h.header hu :), (h.header hu :)]
  case free_header =>
    intro c u' hc hf
    rcases hcases hc with ⟨-, -, rfl⟩ | ⟨u, hu, -, ⟨-, rfl⟩ | ⟨-, -, rfl⟩ | ⟨-, -, rfl⟩⟩
    exacts [rfl, h.free_header hu hf, (h.free_header hu hf :), (h.free_header hu hf :)]
  case block =>
    intro c u' hc
    rcases hcases hc with ⟨hr, rfl, rfl⟩ | ⟨u, hu, hca,
      ⟨hlo, rfl⟩ | ⟨hlo, hle, rfl⟩ | ⟨hlo, hle, rfl⟩⟩
    · have he : restStart hs a s d = a + d := if_pos hr
      rw [rest_len hr]
      exact ⟨.inr (.inr ⟨by rw [he]; rfl, by omega⟩), le_rfl, hself.2.2⟩
    · exact ⟨.inl ⟨(h.block hu).1, hlo⟩, (h.block hu).2⟩
    · have hb := (h.block hu).2.1
      have hlen' : hs ≤ u.len := (h.header hu).trans (Nat.le_add_right ..)
      exact ⟨.inr (.inl ⟨by rw [← hlo]; rfl, by omega⟩), hb, hle⟩
    · have hb := (h.block hu).2.2
      have hlen' : hs ≤ u.len := (h.header hu).trans (Nat.le_add_right ..)
      have hhi := h.hi_eq ha hu hlo
      exact ⟨.inr (.inr ⟨by rw [← hhi]; rfl, by omega⟩), hstart.2.trans hle, hb⟩
  case left_eq_zero =>
    intro c u' hc
    rcases hcases hc with ⟨-, rfl, rfl⟩ | ⟨u, hu, hca,
      ⟨hlo, rfl⟩ | ⟨hlo, hle, rfl⟩ | ⟨hlo, hle, rfl⟩⟩
    · exact iff_of_true rfl rfl
    · exact h.left_eq_zero hu
    · exact (h.left_eq_zero hu :)
    · obtain ⟨h₁, h₂⟩ := h.keepRight_left hhs ha hu hlo hle
      by_cases e : u.left = a
      · have he := h₁.1 e
        simp only [keepRight, if_pos e, restStart]
        split_ifs <;> omega
      · have he := h₂ e
        have hne : c ≠ a + s.len := fun hc => e (h₁.2 hc)
        simp only [keepRight, if_neg e]
        omega
  case right_eq_zero =>
    intro c u' hc
    rcases hcases hc with ⟨hr, rfl, rfl⟩ | ⟨u, hu, hca,
      ⟨hlo, rfl⟩ | ⟨hlo, hle, rfl⟩ | ⟨hlo, hle, rfl⟩⟩
    · rw [rest_len hr]
      exact h.right_eq_zero ha
    · exact h.right_eq_zero hu
    · exact h.keepLeft_right_eq_zero ha hu hlo hle (by omega)
    · exact (h.right_eq_zero hu :)
  case left => exact fun c u' hc h₀ => h.carve_leftOf hhs ha hd hds hc h₀
  case right => exact fun c u' hc h₀ => h.carve_rightOf hhs ha hd hds hc h₀
  case sep =>
    have hextent : ∀ {c : ℕ} {u' : Seg}, Tiling.carve hs T a s d c = some u' →
        (c = a + d ∧ c + u'.len = a + s.len) ∨ ∃ u, T c = some u ∧ c ≠ a ∧ u'.len = u.len := by
      intro c u' hc
      rcases hcases hc with ⟨hr, rfl, rfl⟩ | ⟨u, hu, hca, ⟨-, rfl⟩ | ⟨-, -, rfl⟩ | ⟨-, -, rfl⟩⟩
      exacts [.inl ⟨rfl, rest_len hr⟩, .inr ⟨_, hu, hca, rfl⟩, .inr ⟨_, hu, hca, rfl⟩,
        .inr ⟨_, hu, hca, rfl⟩]
    intro b c u' v' hb hc hbc
    rcases hextent hb with ⟨rfl, he⟩ | ⟨u, hu, hba, hul⟩ <;>
    rcases hextent hc with ⟨rfl, he'⟩ | ⟨v, hv, hca, hvl⟩
    · exact absurd rfl hbc
    · have := h.sep hv ha hca
      omega
    · have := h.sep hu ha hba
      omega
    · rw [hul, hvl]
      exact h.sep hu hv hbc
  case start => exact fun l r hb => h.carve_start hhs ha hd hds hb
  case blocks =>
    -- The blocks which are not those of before lie in the one carved.
    have hin : ∀ {b : ℕ × ℕ}, b ∈ carveBlocks hs B a s d → (b ∈ B ∧ b.1 ≠ s.lo) ∨
        s.lo ≤ b.1 ∧ b.2 ≤ s.hi ∧ (b = (s.lo, a) ∨ b = (restStart hs a s d, s.hi)) := by
      rintro b (hb | ⟨rfl, hlt⟩ | ⟨rfl, hlt⟩)
      · exact .inl hb
      · exact .inr ⟨le_rfl, by simp only; omega, .inl rfl⟩
      · exact .inr ⟨by simp only; omega, le_rfl, .inr rfl⟩
    have hout : ∀ {b : ℕ × ℕ}, b ∈ B ∧ b.1 ≠ s.lo → b.2 ≤ s.lo ∨ s.hi ≤ b.1 := fun {b} ⟨hb, hne⟩ =>
      h.blocks hb hself.1 fun e => hne (by rw [e])
    intro b b' hb hb' hne
    rcases hin hb with hb | ⟨h₁, h₂, h₃⟩ <;> rcases hin hb' with hb' | ⟨h₄, h₅, h₆⟩
    · exact h.blocks hb.1 hb'.1 hne
    · have := hout hb
      omega
    · have := hout hb'
      omega
    · rcases h₃ with rfl | rfl <;> rcases h₆ with rfl | rfl
      · exact absurd rfl hne
      · exact .inl (by simp only; omega)
      · exact .inr (by simp only; omega)
      · exact absurd rfl hne

/-- A segment but the rest of the one carved was as free before. -/
theorem Wf.carve_free {c : ℕ} {u' : Seg} (hc : Tiling.carve hs T a s d c = some u')
    (h₀ : u'.left ≠ 0) :
    ∃ u, T c = some u ∧ c ≠ a ∧ u'.free = u.free := by
  rcases h.carve_cases hhs ha hd hds hc with ⟨-, -, rfl⟩ | ⟨u, hu, hca,
    ⟨-, rfl⟩ | ⟨-, -, rfl⟩ | ⟨-, -, rfl⟩⟩
  · exact absurd rfl h₀
  exacts [⟨u', hu, hca, rfl⟩, ⟨u, hu, hca, rfl⟩, ⟨u, hu, hca, rfl⟩]

omit hd in
/-- The range is in no block any more. -/
theorem Wf.carveBlocks_apart {b : ℕ × ℕ} (hb : b ∈ carveBlocks hs B a s d) {x : ℕ} (hx : a ≤ x)
    (hx' : x < a + d) : x < b.1 ∨ b.2 ≤ x := by
  rcases hb with ⟨hb, hne⟩ | ⟨rfl, -⟩ | ⟨rfl, -⟩
  · exact h.block_apart hhs ha hb hne hx (by omega)
  · exact .inr hx
  · refine .inl (lt_of_lt_of_le hx' ?_)
    simp only [restStart]
    split_ifs <;> omega

/-- The segments in use are those of before. -/
theorem Wf.carve_used (hf : s.free) : (Tiling.carve hs T a s d).used = T.used := by
  funext c
  refine Option.ext fun p => ?_
  rw [used_eq_some, used_eq_some]
  constructor
  · rintro ⟨u', hu', huf, hp⟩
    rcases h.carve_cases hhs ha hd hds hu' with
      ⟨-, -, rfl⟩ | ⟨u, hu, -, ⟨-, rfl⟩ | ⟨-, -, rfl⟩ | ⟨-, -, rfl⟩⟩
    · cases huf
    exacts [⟨u', hu, huf, hp⟩, ⟨u, hu, huf, hp⟩, ⟨u, hu, huf, hp⟩]
  · rintro ⟨u, hu, huf, hp⟩
    have hca : c ≠ a := by
      rintro rfl
      rw [ha] at hu
      rw [← Option.some.inj hu, hf] at huf
      cases huf
    refine ⟨_, h.carve_keep hhs ha hd hds hu hca, ?_⟩
    split_ifs
    exacts [⟨huf, hp⟩, ⟨huf, hp⟩, ⟨huf, hp⟩]

/-- The neighbour on the right of what is left of a free segment is in use, as it was that of the
    segment. -/
theorem Coalesced.carve (hc : Coalesced T) (hf : s.free) : Coalesced (Tiling.carve hs T a s d) := by
  intro c u' v' hu' hv' huf hvf
  have hwf := h.carve hhs ha hd hds
  have h₀ : u'.right ≠ 0 := hwf.ne_zero hv'
  have hc₀ : v'.left ≠ 0 := by
    rw [(hwf.of_right hu' hv').2.1]
    exact hwf.ne_zero hu'
  obtain ⟨v, hv, -, hvf'⟩ := h.carve_free hhs ha hd hds hv' hc₀
  rw [hvf'] at hvf
  rcases h.carve_cases hhs ha hd hds hu' with
    ⟨-, -, rfl⟩ | ⟨u, hu, -, ⟨-, rfl⟩ | ⟨-, -, rfl⟩ | ⟨-, -, rfl⟩⟩
  · exact hc ha hv hf hvf
  · exact hc hu hv huf hvf
  · have hright : (keepLeft a u).right = u.right := if_neg fun e => h₀ (if_pos e)
    rw [hright] at hv
    exact hc hu hv huf hvf
  · exact hc hu hv huf hvf

end Carve

end Tiling

end DemoOs
