import DemoOs.Mm.HeapCarved

/-!
# Freeing twice

`free` finds out by the word before the payload, and by the links of the descriptor it leads to,
that a pointer was freed before. What they hold depends on what has become of the segment (`Fate`):
its descriptor was cleared when another segment took it over, or it is in the free ring. A segment
with a longer header than a descriptor is not recognised if it is taken over only when its left
neighbour is freed (`ignoresRepeats_iff`).
-/

namespace DemoOs

namespace Heap

open Mem

/-- `free`, called with these pointers one after the other. -/
def freeAll (header : ℕ) (h : Heap) (l : List ℕ) : Heap := l.foldl (free header) h

/-- The first of each pointer. -/
def firsts (l : List ℕ) : List ℕ := l.reverse.dedup.reverse

/-- Freeing a pointer again does nothing. -/
structure IgnoresRepeats (header : ℕ) (h : Heap) (blocks : List (ℕ × ℕ)) (l : List ℕ) : Prop where
  again : ∀ l₁ p l₂, l = l₁ ++ p :: l₂ → p ∈ l₁ →
    free header (freeAll header h l₁) p = freeAll header h l₁
  firsts : freeAll header h l = freeAll header h (firsts l)
  wellFormed : ∀ l₁ l₂, l = l₁ ++ l₂ → WellFormed header ⟨freeAll header h l₁, blocks, []⟩

/-- The payload `p` of a segment in use at `a`, with `k` bytes before it. Allocations are aligned to
    words. -/
def Payload (st : State) (a k p : ℕ) : Prop := (∃ n, UsedSeg st a k n) ∧ p = a + k ∧ 4 ∣ p

/-- The pointer `q` is in the list, for the first time, after `p`. -/
def Follows (l : List ℕ) (p q : ℕ) : Prop := ∃ u v, l = u ++ q :: v ∧ p ∈ u ∧ q ∉ u

/-- The pointer `q` of the left neighbour is freed, for the first time, between two frees of `p`,
    whose header is longer than a descriptor. -/
def Exposes (st : State) (l : List ℕ) (p q : ℕ) : Prop :=
  (∃ a k j, Payload st a k p ∧ 24 < k ∧ Payload st (st.heap.mem.left a) j q) ∧
    ∃ u v, l = u ++ q :: v ∧ p ∈ u ∧ q ∉ u ∧ p ∈ v

variable {header : ℕ} {B : Set (ℕ × ℕ)} {blocks : List (ℕ × ℕ)} {T T₀ : Tiling} {m : Mem} {h : Heap}
    {R : List ℕ}
  {a p q x : ℕ} {s t : Seg} {l : List ℕ}

/-! ## What `free` leaves in memory -/

/-- What is in no descriptor remains. -/
theorem Inv.free_same (hinv : Inv header B h T R) (ha : T a = some s) (hu : s.free = false)
    (hx : Apart header T {x}) : (free header h (a + s.hoff)).mem x = h.mem x := by
  classical
  have hspares := congrArg Heap.mem (hinv.spares_free hx ha hu h.mem)
  rw [Set.piecewise_same] at hspares
  have hword : (free header h (a + s.hoff)).mem x =
      ({x} : Set ℕ).piecewise h.mem (free header h (a + s.hoff)).mem x := congrFun hspares x
  rwa [Set.piecewise_eq_of_mem _ _ _ (Set.mem_singleton x)] at hword

/-- An address in a segment which is gone, or has a shorter descriptor, is in no descriptor any
    more. -/
theorem Inv.apart_of_mono (hinv : Inv header B h T R) (ha : T a = some s) (T' : Tiling)
    (hmono : ∀ ⦃c u⦄, T' c = some u → ∃ v, T c = some v ∧ u.hoff ≤ v.hoff) {o : ℕ}
    (hself : ∀ v, T' a = some v → v.hoff ≤ o) (ho : o < s.len) : Apart header T' {a + o} := by
  have hlay := hinv.rep.layout
  refine ⟨?_, fun c u hc i hi hmem => ?_⟩
  · obtain ⟨hb, h₁, h₂⟩ := hlay.wf.block ha
    have happ := hlay.apart _ hb
    simp only [Set.mem_singleton_iff] at happ ⊢
    omega
  · have heq : c + i = a + o := hmem
    by_cases hca : c = a
    · subst hca
      have := hself u hc
      omega
    · obtain ⟨v, hv, hle⟩ := hmono hc
      have hsep := hlay.wf.sep hv ha hca
      have hlen : v.hoff ≤ v.len := Nat.le_add_right ..
      omega

/-- No segment has a cleared descriptor. -/
theorem Inv.eq_none_of_clear (hinv : Inv header B h T R) (hclear : h.mem (a + 20) = 0) :
    T a = none := by
  cases ha : T a with
  | none => rfl
  | some s =>
    have hseg := (hinv.rep.seg ha).hoff
    have := hinv.rep.layout.bound ha
    omega

/-- The descriptor of a free right neighbour is cleared. -/
theorem Inv.free_right (hinv : Inv header B h T R) (ha : T a = some s) (hu : s.free = false)
    (ht : T s.right = some t) (htf : t.free) {o : ℕ} (ho : o < 24) :
    (free header h (a + s.hoff)).mem (s.right + o) = 0 := by
  have hfree : (T s.right).any Seg.free := by rw [ht, Option.any_some, htf]
  have hoff := hinv.rep.layout.wf.free_header ht htf
  obtain ⟨T₁, R₁, s₁, hinv₁, hj⟩ := hinv.mergeRight ha hu
  have hmerge : Heap.mergeRight h.mem a (s.right + o) = 0 := by
    have htake := hinv.take ht htf
    have hne := (hinv.rep.layout.wf.right_ne (by decide) ha).symm
    rw [hinv.mergeRight_eq ha, if_pos hfree, htake.rep.merge_apply
      (by rw [T.setFree_false_apply, if_neg hne, ha]) (by rw [T.setFree_false_apply, if_pos rfl]),
      if_pos (by simp only; omega)]
  have hapart : Apart header T₁ {s.right + o} := hinv.apart_of_mono ht T₁
    (fun c u hc => (hj.header hc).imp fun v hv => ⟨hv.1, hv.2.le⟩)
    (fun v hv => by rw [hj.gone hfree] at hv; cases hv) (by rw [Seg.len]; omega)
  classical
  rw [hinv.free_eq ha hu]
  exact ((hinv₁.spares_mergeLeft hapart hj.seg hj.used).same (Set.mem_singleton _)).trans hmerge

/-- A segment given back to a free left neighbour is cleared up to its payload. -/
theorem Inv.free_left (hinv : Inv header B h T R) (ha : T a = some s) (hu : s.free = false)
    (hfree : (T s.left).any Seg.free) {o : ℕ} (ho : o < s.hoff) :
    (free header h (a + s.hoff)).mem (a + o) = 0 := by
  obtain ⟨T₁, R₁, s₁, hinv₁, hj⟩ := hinv.mergeRight ha hu
  have hfree₁ : (T₁ s₁.left).any Seg.free := by rwa [hj.left, hj.left_seg]
  obtain ⟨t, ht, -⟩ := (Option.any_eq_true _ _).1 hfree₁
  have hta := (hinv₁.rep.layout.wf.of_left hj.seg ht).1
  subst hta
  have happ := hinv₁.rep.merge_apply ht hj.seg (t.right + o)
  rw [hinv.free_eq ha hu]
  refine (congrFun (hinv₁.mergeLeft_eq hj.seg) _).trans ?_
  rw [if_pos hfree₁, happ, if_pos (by rw [hj.hoff]; omega)]

/-- The word before the payload of a segment released is still the length of its header, and in no
    descriptor any more. -/
theorem Inv.free_tag (hinv : Inv header B h T R) (ha : T a = some s) (hu : s.free = false)
    (hfree : ¬(T s.left).any Seg.free) (hgt : 28 ≤ s.hoff) :
    (free header h (a + s.hoff)).mem (a + s.hoff - 4) = s.hoff := by
  obtain ⟨T₁, R₁, s₁, hinv₁, hj⟩ := hinv.mergeRight ha hu
  have hfree₁ : ¬(T₁ s₁.left).any Seg.free := by rwa [hj.left, hj.left_seg]
  have hlay := hinv₁.rep.layout
  have hoff := hj.hoff
  have htag := (hinv₁.rep.seg hj.seg).tag
  rw [hoff] at htag
  have hapart : Apart header (T₁.setFree 24 a s₁ true) {a + (s.hoff - 4)} := by
    have happ := T₁.setFree_true_apply 24 a s₁
    refine hinv₁.apart_of_mono hj.seg _ (fun c u hc => ?_) (fun v hv => ?_) (by rw [Seg.len]; omega)
    · rw [happ] at hc
      split_ifs at hc with hca
      · exact ⟨s₁, hca ▸ hj.seg, by rw [← Option.some.inj hc]; exact (hlay.bound hj.seg).2.1⟩
      · exact ⟨u, hc, le_rfl⟩
    · rw [happ, if_pos rfl] at hv
      rw [← Option.some.inj hv]
      simp only
      omega
  rw [Nat.add_sub_assoc (by omega)] at htag ⊢
  classical
  rw [hinv.free_eq ha hu]
  refine (congrFun (hinv₁.mergeLeft_eq hj.seg) _).trans ?_
  rw [if_neg hfree₁]
  exact ((hinv₁.rep.spares_release hapart hj.seg hj.used).same (Set.mem_singleton _)).trans htag

/-! ## The order of the frees -/

theorem Follows.mem (hf : Follows l p q) : p ∈ l ∧ q ∈ l := by
  obtain ⟨u, v, rfl, hp, -⟩ := hf
  exact ⟨List.mem_append_left _ hp, List.mem_append_right _ List.mem_cons_self⟩

theorem follows_concat : Follows (l ++ [x]) p q ↔ Follows l p q ∨ x = q ∧ p ∈ l ∧ q ∉ l := by
  constructor
  · rintro ⟨u, v, heq, hp, hq⟩
    rcases List.eq_nil_or_concat' v with rfl | ⟨v, y, rfl⟩
    · obtain ⟨hlu, hxq⟩ := List.append_inj' heq rfl
      rw [← hlu] at hp hq
      exact .inr ⟨(List.cons.inj hxq).1, hp, hq⟩
    · rw [← List.cons_append, ← List.append_assoc] at heq
      obtain ⟨rfl, -⟩ := List.append_inj' heq rfl
      exact .inl ⟨u, v, rfl, hp, hq⟩
  · rintro (⟨u, v, rfl, hp, hq⟩ | ⟨rfl, hp, hq⟩)
    · exact ⟨u, v ++ [x], by simp, hp, hq⟩
    · exact ⟨l, [], rfl, hp, hq⟩

/-- A pointer that was freed before adds nothing to the order. -/
theorem follows_concat_of_mem (hx : x ∈ l) : Follows (l ++ [x]) p q ↔ Follows l p q := by
  rw [follows_concat, or_iff_left]
  rintro ⟨rfl, -, hq⟩
  exact hq hx

/-! ## What becomes of a segment -/

/-- The payload `q` of the left neighbour of the segment at `a`, in use. -/
def LeftPayload (T : Tiling) (a q : ℕ) : Prop :=
  ∃ s t, T a = some s ∧ T s.left = some t ∧ t.free = false ∧ q = s.left + t.hoff

/-- The segment was taken over, and the word before its payload is cleared. -/
def Cleared (header : ℕ) (T : Tiling) (m : Mem) (a k : ℕ) : Prop :=
  m (a + k - 4) = 0 ∧ Apart header T {a + k - 4}

/-- The segment is in the free ring. -/
def Listed (header : ℕ) (T : Tiling) (m : Mem) (a k : ℕ) : Prop :=
  (∃ s, T a = some s ∧ s.free) ∧ m (a + k - 4) = k ∧ (24 < k → Apart header T {a + k - 4})

/-- The segment was taken over, but only its descriptor is cleared. -/
structure Lost (header : ℕ) (T : Tiling) (m : Mem) (a k : ℕ) : Prop where
  tag : m (a + k - 4) = k
  apart_tag : Apart header T {a + k - 4}
  clear : ∀ o < 24, m (a + o) = 0
  apart : ∀ o < 24, Apart header T {a + o}

/-- What has become of the segment at `a`, with `k` bytes before its payload, which was freed. -/
inductive Fate (header : ℕ) (T₀ T : Tiling) (m : Mem) (l : List ℕ) (a k : ℕ) : Prop
  | cleared : Cleared header T m a k →
      (24 < k → ∀ q, LeftPayload T₀ a q → q ∈ l ∧ ¬Follows l (a + k) q) → Fate header T₀ T m l a k
  | listed : Listed header T m a k → (∀ q, LeftPayload T₀ a q → q ∉ l) → Fate header T₀ T m l a k
  | lost {q : ℕ} : Lost header T m a k → 24 < k → LeftPayload T₀ a q → Follows l (a + k) q →
      Fate header T₀ T m l a k

/-- The heap `h`, with the tiling `T`, after the frees `l` of segments in use of the tiling `T₀`. -/
structure Freed (header : ℕ) (B : Set (ℕ × ℕ)) (T₀ : Tiling) (l : List ℕ) (h : Heap) (T : Tiling)
    (R : List ℕ) :
    Prop where
  inv : Inv header B h T R
  used : ∀ a, T.used a = (T₀.used a).filter fun e => a + e.1 ∉ l
  fate : ∀ ⦃a s⦄, T₀ a = some s → s.free = false → a + s.hoff ∈ l →
    Fate header T₀ T h.mem l a s.hoff

theorem Fate.congr {l' : List ℕ} {k : ℕ} (hmem : ∀ q, q ∈ l' ↔ q ∈ l)
    (hfollows : ∀ p q, Follows l' p q ↔ Follows l p q)
    (hfate : Fate header T₀ T m l a k) : Fate header T₀ T m l' a k := by
  cases hfate with
  | cleared hc hq =>
    exact .cleared hc fun hgt q hleft => by rw [hmem, hfollows]; exact hq hgt q hleft
  | listed hl hq => exact .listed hl fun q hleft => by rw [hmem]; exact hq q hleft
  | lost hl hgt hleft hf => exact .lost hl hgt hleft ((hfollows _ _).2 hf)

theorem LeftPayload.unique (hp : LeftPayload T a p) (hq : LeftPayload T a q) : p = q := by
  obtain ⟨s, t, hs, ht, -, rfl⟩ := hp
  obtain ⟨s', t', hs', ht', -, rfl⟩ := hq
  obtain rfl : s = s' := Option.some.inj (hs.symm.trans hs')
  obtain rfl : t = t' := Option.some.inj (ht.symm.trans ht')
  rfl

/-- The word before the payload of a free segment is that of a descriptor, unless it is the one that
    was there. -/
theorem Inv.listed (hinv : Inv header B h T R) (ha : T a = some s) (hf : s.free) {k : ℕ}
    (hk : 24 ≤ k)
    (htag : 24 < k → h.mem (a + k - 4) = k) (hapart : 24 < k → Apart header T {a + k - 4}) :
    Listed header T h.mem a k := by
  refine ⟨⟨s, ha, hf⟩, ?_, hapart⟩
  rcases hk.eq_or_lt with rfl | hgt
  · have htag := (hinv.rep.seg ha).tag
    rwa [hinv.rep.layout.wf.free_header ha hf] at htag
  · exact htag hgt

/-- Segments with the same payload are the same. -/
theorem payload_inj (hlay : Layout header B T) {b : ℕ} (ha : T a = some s) (hb : T b = some t)
    (heq : a + s.hoff = b + t.hoff) : a = b := by
  by_contra hne
  have h₁ := hlay.wf.sep ha hb hne
  have h₂ := hlay.bound ha
  have h₃ := hlay.bound hb
  rw [Seg.len, Seg.len] at h₁
  omega

namespace Freed

variable (hf : Freed header B T₀ l h T R)

include hf

theorem used_of_not_mem (ha : T₀ a = some s) (hu : s.free = false) (hl : a + s.hoff ∉ l) :
    ∃ s', T a = some s' ∧ s'.free = false ∧ s'.hoff = s.hoff ∧ s'.avail = s.avail := by
  have hused := hf.used a
  rw [Tiling.used_of_used ha hu] at hused
  have hsome : T.used a = some (s.hoff, s.avail) := hused.trans (by simp [hl])
  exact Tiling.used_eq_some.1 hsome

theorem used_of_mem (ha : T₀ a = some s) (hu : s.free = false) (hl : a + s.hoff ∈ l) :
    T.used a = none := by
  rw [hf.used, Tiling.used_of_used ha hu]
  simp [hl]

theorem of_used (ha : T a = some s) (hu : s.free = false) :
    ∃ s', T₀ a = some s' ∧ s'.free = false ∧ s'.hoff = s.hoff ∧ s'.avail = s.avail ∧
      a + s.hoff ∉ l := by
  have hused := (hf.used a).symm.trans (Tiling.used_of_used ha hu)
  obtain ⟨h₁, h₂⟩ := Option.filter_eq_some_iff.1 hused
  obtain ⟨s', hs', hu', hoff, havail⟩ := Tiling.used_eq_some.1 h₁
  exact ⟨s', hs', hu', hoff, havail, of_decide_eq_true h₂⟩

section Step

variable {h₀ : Heap} {R₀ : List ℕ} (hinv₀ : Inv header B h₀ T₀ R₀) {b : ℕ} {u₀ u : Seg}
    (hb₀ : T₀ b = some u₀)
  (hb : T b = some u) (hu : u.free = false) (hlen : u.len = u₀.len)

include hinv₀ hb hlen in
/-- The left neighbour of the beginning, still in use, is the left neighbour. -/
theorem right_eq (ha₀ : T₀ a = some s) (hleft : s.left = b) (hb₀ : T₀ b = some u₀) :
    u.right = a ∧ ∃ s', T a = some s' ∧ s'.left = b := by
  subst hleft
  exact hinv₀.rep.layout.wf.right_unique hf.inv.rep.layout.wf (by decide) ha₀ hb₀ hb hlen

include hinv₀ hb₀ hb hlen in
/-- The left neighbour, in use, was the left neighbour of the beginning. -/
theorem left_eq (hright : u.right = a) (ha : T a = some t) (ha₀ : T₀ a = some s) : s.left = b := by
  have hwf := hf.inv.rep.layout.wf
  have hleft := (hwf.of_right hb (hright.symm ▸ ha)).2.1
  obtain ⟨-, s', hs', hleft'⟩ :=
    hwf.right_unique hinv₀.rep.layout.wf (by decide) ha (hleft ▸ hb) (hleft ▸ hb₀)
    hlen.symm
  rw [ha₀] at hs'
  rw [Option.some.inj hs', hleft', hleft]

variable (hoff : u.hoff = u₀.hoff) (hx : b + u₀.hoff ∉ l) {T' : Tiling} {R' : List ℕ}
  (hinv' : Inv header B (free header h (b + u.hoff)) T' R')
  (hmono : ∀ ⦃c v⦄, T' c = some v → ∃ w, T c = some w ∧ v.hoff ≤ w.hoff)
  (hused' : T'.used = Function.update T.used b none)

include hb hu hlen hoff hinv' hmono in
/-- A segment with a free left neighbour is taken over. -/
theorem cleared_self (hfree : (T u.left).any Seg.free) :
    Cleared header T' (free header h (b + u.hoff)).mem b u₀.hoff := by
  have hbnd := hf.inv.rep.layout.bound hb
  have hulen : u.len = u.hoff + u.avail := rfl
  have hassoc : b + u₀.hoff - 4 = b + (u₀.hoff - 4) := by omega
  have hgone : T' b = none := hinv'.eq_none_of_clear (hf.inv.free_left hb hu hfree (by omega))
  refine ⟨?_, ?_⟩
  · rw [hassoc]
    exact hf.inv.free_left hb hu hfree (by omega)
  · rw [hassoc]
    exact hf.inv.apart_of_mono hb T' hmono (fun v hv => by rw [hgone] at hv; cases hv) (by omega)

include hinv₀ hb in
/-- A free left neighbour was freed before. -/
theorem mem_of_left_free (hfree : (T u.left).any Seg.free) (hq : LeftPayload T₀ b q) : q ∈ l := by
  by_contra hql
  obtain ⟨s, t, hs, ht, htu, rfl⟩ := hq
  obtain ⟨t', ht', htu', hoff', havail'⟩ := hf.used_of_not_mem ht htu hql
  obtain ⟨-, s', hs', hleft⟩ :=
    hf.right_eq hinv₀ ht' (by rw [Seg.len, hoff', havail', Seg.len]) hs rfl ht
  rw [hb] at hs'
  rw [Option.some.inj hs', hleft, ht', Option.any_some, htu'] at hfree
  cases hfree

include hb hinv' hused' in
/-- A segment without a free left neighbour is free. -/
theorem exists_self (hfree : ¬(T u.left).any Seg.free) : ∃ v, T' b = some v ∧ v.free := by
  have hwf := hf.inv.rep.layout.wf
  obtain ⟨v, hv⟩ := hwf.exists_of_left hinv'.rep.layout.wf (by decide) hb fun t ht => by
    rw [hused', Function.update_of_ne (hwf.left_ne (by decide) hb ht),
      Tiling.used_of_used ht (Tiling.free_eq_false hfree ht)]
  exact ⟨v, hv, Tiling.free_of_used_eq_none hv (by rw [hused', Function.update_self])⟩

include hinv₀ hb₀ hb in
/-- A left neighbour in use was not freed before. -/
theorem not_mem_of_left_used (hfree : ¬(T u.left).any Seg.free)
    (hq : LeftPayload T₀ b q) : q ∉ l := by
  intro hmem
  have hwf := hf.inv.rep.layout.wf
  have hwf₀ := hinv₀.rep.layout.wf
  obtain ⟨s, t, hs, ht, htu, rfl⟩ := hq
  obtain rfl : u₀ = s := Option.some.inj (hb₀.symm.trans hs)
  have hnone := hf.used_of_mem ht htu hmem
  by_cases hl : u.left = 0
  · -- There is none, and there was none.
    obtain ⟨hlo, -⟩ := hwf.block_unique (by decide) hwf₀ hb hb₀
    exact hwf₀.ne_zero ht ((hwf₀.left_eq_zero hb₀).2 (hlo ▸ (hwf.left_eq_zero hb).1 hl))
  · obtain ⟨t', ht', hright⟩ := hwf.left hb hl
    have htu' := Tiling.free_eq_false hfree ht'
    obtain ⟨t₀, ht₀, -, hoff', havail', -⟩ := hf.of_used ht' htu'
    have hleq := hf.left_eq hinv₀ ht₀ ht' (by rw [Seg.len, Seg.len, hoff', havail']) hright hb hb₀
    rw [hleq, Tiling.used_of_used ht' htu'] at hnone
    cases hnone

include hinv₀ hb₀ hb hu hlen hoff hx hinv' hmono hused' in
/-- What becomes of the segment freed. -/
theorem fate_self (h4 : 4 ∣ b + u₀.hoff) :
    Fate header T₀ T' (free header h (b + u.hoff)).mem (l ++ [b + u₀.hoff]) b u₀.hoff := by
  have hlay₀ := hinv₀.rep.layout
  have hbnd := hf.inv.rep.layout.bound hb
  have hal := hf.inv.rep.layout.aligned hb
  have hulen : u.len = u.hoff + u.avail := rfl
  by_cases hfree : (T u.left).any Seg.free
  · refine .cleared (hf.cleared_self hb hu hlen hoff hinv' hmono hfree) fun _ q hq =>
      ⟨List.mem_append_left _ (hf.mem_of_left_free hinv₀ hb hfree hq),
        fun hfollows => ?_⟩
    rcases follows_concat.1 hfollows with hfollows | ⟨-, hmem, -⟩
    exacts [hx hfollows.mem.1, hx hmem]
  · obtain ⟨v, hv, hvf⟩ := hf.exists_self hb hinv' hused' hfree
    have hvoff := hinv'.rep.layout.wf.free_header hv hvf
    refine .listed (hinv'.listed hv hvf (by omega) (fun hgt => ?_) fun hgt => ?_) fun q hq hmem =>
      ?_
    · rw [← hoff]
      exact hf.inv.free_tag hb hu hfree (by omega)
    · rw [Nat.add_sub_assoc (by omega)]
      exact hf.inv.apart_of_mono hb T' hmono
        (fun w hw => by rw [hv] at hw; rw [← Option.some.inj hw]; omega)
        (by omega)
    · rcases List.mem_append.1 hmem with hmem | hmem
      · exact hf.not_mem_of_left_used hinv₀ hb₀ hb hfree hq hmem
      · obtain ⟨s, t, hs, ht, -, rfl⟩ := hq
        obtain rfl : u₀ = s := Option.some.inj (hb₀.symm.trans hs)
        exact hlay₀.wf.left_ne (by decide) hb₀ ht
          (payload_inj hlay₀ ht hb₀ (List.mem_singleton.1 hmem))

include hb hu hinv' hmono in
/-- A free segment is taken over when its left neighbour is freed. -/
theorem gone_of_right (ha : T a = some t) (htf : t.free) (hright : u.right = a) {o : ℕ}
    (ho : o < 24) :
    (free header h (b + u.hoff)).mem (a + o) = 0 ∧ Apart header T' {a + o} := by
  have hbnd := hf.inv.rep.layout.bound ha
  have htlen : t.len = t.hoff + t.avail := rfl
  subst hright
  have hclear : ∀ o < 24, (free header h (b + u.hoff)).mem (u.right + o) = 0 := fun o ho =>
    hf.inv.free_right hb hu ha htf ho
  have hgone : T' u.right = none := hinv'.eq_none_of_clear (hclear 20 (by decide))
  exact ⟨hclear o ho,
    hf.inv.apart_of_mono ha T' hmono (fun v hv => by rw [hgone] at hv; cases hv) (by omega)⟩

include hb hinv' hused' in
/-- A free segment remains when it is not on the right of the segment freed. -/
theorem exists_other (ha : T a = some t) (htf : t.free) (hne : a ≠ b) (hright : u.right ≠ a) :
    ∃ v, T' a = some v ∧ v.free := by
  have hwf := hf.inv.rep.layout.wf
  obtain ⟨v, hv⟩ := hwf.exists_of_left hinv'.rep.layout.wf (by decide) ha fun w hw => by
    have hwa := (hwf.of_left ha hw).1
    have hwu : w.free = false := by
      by_contra hwf
      exact hf.inv.coalesced hw (hwa ▸ ha) (by simpa using hwf) htf
    have hwb : t.left ≠ b := by
      rintro hwb
      rw [hwb, hb] at hw
      rw [← Option.some.inj hw] at hwa
      exact hright hwa
    rw [hused', Function.update_of_ne hwb, Tiling.used_of_used hw hwu]
  refine ⟨v, hv, Tiling.free_of_used_eq_none hv ?_⟩
  rw [hused', Function.update_of_ne hne, Tiling.used_of_free ha htf]

include hinv₀ hb₀ hb hu hlen hx hinv' hmono hused' in
/-- What becomes of a segment freed before. -/
theorem fate_other (ha₀ : T₀ a = some s) (hne : a ≠ b) (hmem : a + s.hoff ∈ l)
    (hfate : Fate header T₀ T h.mem l a s.hoff) :
    Fate header T₀ T' (free header h (b + u.hoff)).mem (l ++ [b + u₀.hoff]) a s.hoff := by
  have hsame : ∀ {x}, Apart header T {x} → (free header h (b + u.hoff)).mem x = h.mem x :=
    hf.inv.free_same hb hu
  have hbnd₀ := hinv₀.rep.layout.bound ha₀
  -- What became of the segment before is still so, unless this free merges it away.
  cases hfate with
  | cleared hc hq =>
    refine .cleared ⟨(hsame hc.2).trans hc.1, hc.2.mono hmono⟩ fun hgt q hleft => ?_
    obtain ⟨hql, hno⟩ := hq hgt q hleft
    refine ⟨List.mem_append_left _ hql, fun hfollows => ?_⟩
    rcases follows_concat.1 hfollows with hfollows | ⟨-, -, hnq⟩
    exacts [hno hfollows, hnq hql]
  | @lost q hl hgt hleft hfollows =>
    exact .lost ⟨(hsame hl.apart_tag).trans hl.tag, hl.apart_tag.mono hmono,
      fun o ho => (hsame (hl.apart o ho)).trans (hl.clear o ho),
        fun o ho => (hl.apart o ho).mono hmono⟩ hgt hleft
      (follows_concat.2 (.inl hfollows))
  | listed hl hq =>
    obtain ⟨⟨t, ha, htf⟩, htag, hapart⟩ := hl
    by_cases hright : u.right = a
    · -- Its left neighbour takes it over.
      have hgone : ∀ o < 24, (free header h (b + u.hoff)).mem (a + o) = 0 ∧
          Apart header T' {a + o} := fun o ho =>
        hf.gone_of_right hb hu hinv' hmono ha htf hright ho
      -- With a tag behind the header the payload is freed, and the tag is left behind.
      by_cases hgt : 24 < s.hoff
      · have hleft : LeftPayload T₀ a (b + u₀.hoff) := by
          have hleq := hf.left_eq hinv₀ hb₀ hb hlen hright ha ha₀
          obtain ⟨w₀, hw₀, hwu, hwoff, -⟩ := hf.of_used hb hu
          obtain rfl : u₀ = w₀ := Option.some.inj (hb₀.symm.trans hw₀)
          exact ⟨s, u₀, ha₀, hleq ▸ hb₀, hwu, by rw [hleq]⟩
        exact .lost ⟨(hsame (hapart hgt)).trans htag, (hapart hgt).mono hmono,
          fun o ho => (hgone o ho).1, fun o ho => (hgone o ho).2⟩ hgt hleft
          (follows_concat.2 (.inr ⟨rfl, hmem, hx⟩))
      · have hassoc : a + s.hoff - 4 = a + 20 := by omega
        refine .cleared ?_ fun h => absurd h hgt
        rw [Cleared, hassoc]
        exact hgone 20 (by decide)
    · obtain ⟨v, hv, hvf⟩ := hf.exists_other hb hinv' hused' ha htf hne hright
      refine .listed (hinv'.listed hv hvf hbnd₀.2.1 (fun hgt => (hsame (hapart hgt)).trans htag)
        fun hgt => (hapart hgt).mono hmono) fun q hleft hql => ?_
      rcases List.mem_append.1 hql with hql | hql
      · exact hq q hleft hql
      · obtain ⟨s', w, hs', hw, -, rfl⟩ := hleft
        obtain rfl : s = s' := Option.some.inj (ha₀.symm.trans hs')
        have hleq := payload_inj hinv₀.rep.layout hw hb₀ (List.mem_singleton.1 hql)
        exact hright (hf.right_eq hinv₀ hb hlen ha₀ hleq hb₀).1

end Step

/-- A segment in use is given back. -/
theorem free {h₀ : Heap} {R₀ : List ℕ} (hinv₀ : Inv header B h₀ T₀ R₀) (ha : T₀ a = some s)
    (hu : s.free = false)
    (hl : a + s.hoff ∉ l) (h4 : 4 ∣ a + s.hoff) :
    ∃ T' R', Freed header B T₀ (l ++ [a + s.hoff]) (Heap.free header h (a + s.hoff)) T' R' := by
  obtain ⟨u, hb, hbu, hoff, havail⟩ := hf.used_of_not_mem ha hu hl
  have hlen : u.len = s.len := by rw [Seg.len, Seg.len, hoff, havail]
  obtain ⟨T', R', hinv', hmono, hused'⟩ := free_spec hf.inv hb hbu
  refine ⟨T', R', hoff ▸ hinv', fun c => ?_, fun c v hc hcu hmem => ?_⟩
  · rw [hused', Function.update_apply]
    split_ifs with hca
    · subst hca
      rw [Tiling.used_of_used ha hu]
      simp [Option.filter]
    · rw [hf.used]
      cases hc : T₀.used c with
      | none => rfl
      | some e =>
        obtain ⟨v, hv, -, hvoff, -⟩ := Tiling.used_eq_some.1 hc
        have hne : c + e.1 ≠ a + s.hoff := fun heq =>
          hca (payload_inj hinv₀.rep.layout hv ha (by rw [hvoff, heq]))
        simp [Option.filter, hne]
  · rw [← hoff]
    -- The block freed here, or one that was freed before.
    by_cases hca : c = a
    · subst hca
      obtain rfl : s = v := Option.some.inj (ha.symm.trans hc)
      rw [hoff, ← hoff]
      exact hoff ▸ hf.fate_self hinv₀ ha hb hbu hlen hoff hl hinv' hmono hused' h4
    · have hne : c + v.hoff ≠ a + s.hoff := fun heq => hca (payload_inj hinv₀.rep.layout hc ha heq)
      have hmem' : c + v.hoff ∈ l := by
        rcases List.mem_append.1 hmem with hmem | hmem
        exacts [hmem, absurd (List.mem_singleton.1 hmem) hne]
      exact hoff ▸ hf.fate_other hinv₀ ha hb hbu hlen hl hinv' hmono hused' hc hca hmem'
        (hf.fate hc hcu hmem')

/-- A pointer is freed again, to no effect. -/
theorem again (hx : x ∈ l) : Freed header B T₀ (l ++ [x]) h T R := by
  have hmem : ∀ q, q ∈ l ++ [x] ↔ q ∈ l := fun q => by
    rw [List.mem_append, List.mem_singleton, or_iff_left_iff_imp]
    rintro rfl
    exact hx
  refine ⟨hf.inv, fun a => ?_, fun a s ha hu hal => ?_⟩
  · simp only [hf.used, hmem]
  · exact (hf.fate ha hu ((hmem _).1 hal)).congr hmem fun p q => follows_concat_of_mem hx

end Freed

theorem Inv.freed (hinv : Inv header B h T R) : Freed header B T [] h T R :=
  ⟨hinv, fun a => by cases T.used a <;> simp [Option.filter],
    fun a s _ _ hl => absurd hl List.not_mem_nil⟩

/-! ## Freeing again -/

/-- `free`, of a pointer in the heap before which there is `k`. -/
theorem free_of_tag {k : ℕ} (hp : 4 ≤ p) (hlt : p < 2 ^ 32) (hstart : h.start ≤ p)
    (hstop : p ≤ h.stop)
    (htag : h.mem (p - 4) = k) : free header h p =
      if k < 24 then h else if h.mem.next (doubleList (wordSub p k)) ≠ 0 then h
      else { h with
        mem := Heap.mergeLeft header (Heap.mergeRight h.mem (wordSub p k)) (wordSub p k) } := by
  rw [free, if_neg (by omega), if_neg (by omega), wordSub_eq hp hlt, htag]
  rfl

/-- A bogus descriptor enters the free ring. -/
theorem Rep.link_lost (hrep : Rep header B m T R) (ha : a + 24 < 2 ^ 32) {k : ℕ}
    (hl : Lost header T m a k) :
    Heap.mergeLeft header (Heap.mergeRight m a) a (a + 8) ≠ m (a + 8) := by
  have w₁ : word (a + 4) = a + 4 := word_eq (by omega)
  have w₂ : word (a + 8) = a + 8 := word_eq (by omega)
  have w₃ : word (a + 16) = a + 16 := word_eq (by omega)
  have w₄ : word (a + 20) = a + 20 := word_eq (by omega)
  have w₅ : word (a + 8 + 4) = a + 12 := word_eq (by omega)
  have hright : Heap.mergeRight m a = m := by
    rw [Heap.mergeRight, Mem.right, w₁, hl.clear 4 (by decide), if_neg (fun h => h.1 rfl)]
  have hleft : m.left a = 0 := hl.clear 0 (by decide)
  have hoff : m.headerOffset a = 0 := by rw [Mem.headerOffset, w₄, hl.clear 20 (by decide)]
  have havail : m.availableSize a = 0 := by rw [Mem.availableSize, w₃, hl.clear 16 (by decide)]
  obtain ⟨q, hq, hnext⟩ := hrep.ring.exists_next (x := header) (by simp)
  obtain ⟨hnext, hq₀⟩ := ptr_eq_some.1 hnext.1
  have happ := hl.apart 8 (by decide)
  have happ' : header ≠ a + 8 := happ.header.1
  obtain ⟨-, hq'⟩ := hrep.apart_ring happ hq
  have hq' : word (q + 4) ≠ a + 8 := hq'
  rw [hright, Heap.mergeLeft, hleft, if_neg (fun h => h.1 rfl), Heap.release, hoff,
    if_neg (by decide), Heap.link, havail, if_neg (by decide), doubleList, w₂,
    addNodeToRingDoubleListHeader_eq hnext (by omega) happ'.symm,
    write_apply, if_neg hq'.symm, write_apply, if_neg happ'.symm, write_apply, if_neg (by omega),
      write_apply,
    if_pos rfl, hl.clear 8 (by decide)]
  exact hnext ▸ hq₀

/-- A segment freed is recognised, unless it is lost. -/
theorem Freed.free_eq_iff {h₀ : Heap} {R₀ : List ℕ} (hinv₀ : Inv header B h₀ T₀ R₀)
    (hf : Freed header B T₀ l h T R) (ha : T₀ a = some s) (hu : s.free = false)
    (hl : a + s.hoff ∈ l) :
    Heap.free header h (a + s.hoff) = h ↔
      ¬(24 < s.hoff ∧ ∃ q, LeftPayload T₀ a q ∧ Follows l (a + s.hoff) q) := by
  have hbnd := hinv₀.rep.layout.bound ha
  obtain ⟨hb, h₁, h₂⟩ := hinv₀.rep.layout.wf.block ha
  have hstart := hf.inv.start _ hb
  have hstop := hf.inv.stop _ hb
  rw [Seg.len] at h₂
  simp only at hstart hstop
  have hnode : wordSub (a + s.hoff) s.hoff = a := by
    rw [wordSub_eq (by omega) (by omega), Nat.add_sub_cancel]
  -- What `free` reads before the payload decides whether it changes anything.
  cases hf.fate ha hu hl with
  | cleared hc hq =>
    rw [free_of_tag (by omega) (by omega) (by omega) (by omega) hc.1, if_pos (by decide)]
    refine iff_of_true rfl ?_
    rintro ⟨hgt, q, hleft, hfollows⟩
    exact (hq hgt q hleft).2 hfollows
  | listed hlist hq =>
    obtain ⟨⟨t, ht, htf⟩, htag, -⟩ := hlist
    have hnext := ((hf.inv.rep.links_ne_zero hf.inv.all ht).1).2 htf
    rw [free_of_tag (by omega) (by omega) (by omega) (by omega) htag, if_neg (by omega), hnode,
      if_pos hnext]
    refine iff_of_true rfl ?_
    rintro ⟨-, q, hleft, hfollows⟩
    exact hq q hleft hfollows.mem.2
  | @lost q hlost hgt hleft hfollows =>
    refine iff_of_false (fun heq => ?_) (not_not_intro ⟨hgt, q, hleft, hfollows⟩)
    have hnext : h.mem.next (doubleList a) = 0 := by
      rw [doubleList, word_eq (by omega), Mem.next, hlost.clear 8 (by decide)]
    rw [free_of_tag (by omega) (by omega) (by omega) (by omega) hlost.tag, if_neg (by omega), hnode,
      if_neg (not_not_intro hnext)] at heq
    exact hf.inv.rep.link_lost (by omega) hlost (congrFun (congrArg Heap.mem heq) (a + 8))

/-! ## Sequences of frees -/

theorem freeAll_concat (header : ℕ) (h : Heap) (l : List ℕ) (p : ℕ) :
    freeAll header h (l ++ [p]) = free header (freeAll header h l) p := List.foldl_concat ..

theorem firsts_concat (l : List ℕ) (p : ℕ) : firsts (l ++ [p]) = if p ∈ l then firsts l
    else firsts l ++ [p] := by
  rw [firsts, List.reverse_concat]
  split_ifs with hp
  · rw [List.dedup_cons_of_mem (List.mem_reverse.2 hp), firsts]
  · rw [List.dedup_cons_of_notMem (mt List.mem_reverse.1 hp), List.reverse_cons, firsts]

/-- The payload of a segment in use of the tiling. -/
theorem Inv.payload_iff (hinv : Inv header {b | b ∈ blocks} h T R) {k : ℕ} :
    Payload ⟨h, blocks, []⟩ a k p ↔ ∃ s, T a = some s ∧ s.free = false ∧ s.hoff = k ∧
      p = a + k ∧ 4 ∣ p := by
  constructor
  · rintro ⟨⟨n, hused⟩, hp⟩
    obtain ⟨s, ha, hu, hoff, -⟩ := hinv.used_of_usedSeg hused
    exact ⟨s, ha, hu, hoff, hp⟩
  · rintro ⟨s, ha, hu, rfl, hp⟩
    have hiff : UsedSeg ⟨h, blocks, []⟩ a s.hoff s.avail ↔ _ := Inv.usedSeg_iff hinv
    exact ⟨⟨s.avail, hiff.2 (Tiling.used_of_used ha hu)⟩, hp⟩

/-- The state after every part of a sequence, if freeing a pointer again does nothing. -/
theorem Inv.freed_of_again (hinv : Inv header {b | b ∈ blocks} h T R)
    (hl : ∀ p ∈ l, ∃ a k, Payload ⟨h, blocks, []⟩ a k p)
    (hagain : ∀ l₁ p l₂, l = l₁ ++ p :: l₂ → p ∈ l₁ → ∀ T' R',
      Freed header {b | b ∈ blocks} T l₁ (freeAll header h l₁) T' R' →
        free header (freeAll header h l₁) p = freeAll header h l₁)
    (l₁ l₂ : List ℕ) (heq : l = l₁ ++ l₂) :
    ∃ T' R', Freed header {b | b ∈ blocks} T l₁ (freeAll header h l₁) T' R' := by
  induction l₁ using List.reverseRecOn generalizing l₂ with
  | nil => exact ⟨T, R, hinv.freed⟩
  | append_singleton l₁ x ih =>
    rw [List.append_assoc, List.singleton_append] at heq
    obtain ⟨T', R', hf⟩ := ih (x :: l₂) heq
    rw [freeAll_concat]
    by_cases hx : x ∈ l₁
    · rw [hagain l₁ x l₂ heq hx T' R' hf]
      exact ⟨T', R', hf.again hx⟩
    · obtain ⟨a, k, hpay⟩ := hl x (heq ▸ List.mem_append_right _ List.mem_cons_self)
      obtain ⟨s, ha, hu, rfl, rfl, h4⟩ := hinv.payload_iff.1 hpay
      exact hf.free hinv ha hu hx h4

/-- A pointer freed again is not recognised if its left neighbour was freed since its first free. -/
theorem Inv.exposes_iff (hinv : Inv header {b | b ∈ blocks} h T R)
    (hl : ∀ p ∈ l, ∃ a k, Payload ⟨h, blocks, []⟩ a k p) :
    (∃ q, Exposes ⟨h, blocks, []⟩ l p q) ↔ ∃ l₁ l₂, l = l₁ ++ p :: l₂ ∧ p ∈ l₁ ∧ ∃ a s,
      T a = some s ∧ s.free = false ∧ p = a + s.hoff ∧ 24 < s.hoff ∧ ∃ q, LeftPayload T a q ∧
        Follows l₁ p q := by
  have h4 : ∀ p ∈ l, 4 ∣ p := fun p hp => by
    obtain ⟨a, k, -, -, h4⟩ := hl p hp
    exact h4
  constructor
  · rintro ⟨q, ⟨a, k, j, hp, hgt, hq⟩, u, v, rfl, hpu, hqu, hpv⟩
    obtain ⟨v₁, v₂, rfl⟩ := List.append_of_mem hpv
    obtain ⟨s, ha, hu, rfl, rfl, -⟩ := hinv.payload_iff.1 hp
    obtain ⟨t, ht, htu, rfl, rfl, -⟩ := hinv.payload_iff.1 hq
    simp only [hinv.rep.left_eq ha] at ht hqu ⊢
    exact ⟨u ++ (s.left + t.hoff) :: v₁,
      v₂, by simp, List.mem_append_left _ hpu, a, s, ha, hu, rfl, hgt,
      s.left + t.hoff, ⟨s, t, ha, ht, htu, rfl⟩, u, v₁, rfl, hpu, hqu⟩
  · rintro ⟨l₁, l₂, rfl, -, a, s, ha, hu, rfl, hgt, q, ⟨s', t, ha', ht, htu, rfl⟩, u, v,
      rfl, hpu, hqu⟩
    obtain rfl : s = s' := Option.some.inj (ha.symm.trans ha')
    refine ⟨s.left + t.hoff,
      ⟨a, s.hoff, t.hoff, hinv.payload_iff.2 ⟨s, ha, hu, rfl, rfl, h4 _ (by simp)⟩, hgt, ?_⟩,
      u, v ++ (a + s.hoff) :: l₂, by simp, hpu, hqu, by simp⟩
    simp only [hinv.rep.left_eq ha]
    exact hinv.payload_iff.2 ⟨t, ht, htu, rfl, rfl, h4 _ (by simp)⟩

/-- **Freeing again does nothing**, to pointers in use before, exactly if the left neighbour of none
    with a longer header than a descriptor is freed between two frees of it. -/
theorem ignoresRepeats_iff (hwf : WellFormed header ⟨h, blocks, []⟩)
    (hl : ∀ p ∈ l, ∃ a k, Payload ⟨h, blocks, []⟩ a k p) :
    IgnoresRepeats header h blocks l ↔ ∀ p q, ¬Exposes ⟨h, blocks, []⟩ l p q := by
  obtain ⟨T, R, hinv⟩ := hwf
  have hexposes := fun p => hinv.exposes_iff hl (p := p)
  constructor
  · rintro hi p q hex
    obtain ⟨l₁, l₂, heq, hp, a, s, ha, hu, rfl, hlost⟩ := (hexposes p).1 ⟨q, hex⟩
    obtain ⟨T', R', hf⟩ :=
      hinv.freed_of_again hl (fun l₁ p l₂ heq hp _ _ _ => hi.again l₁ p l₂ heq hp) l₁ _ heq
    exact (hf.free_eq_iff hinv ha hu hp).1 (hi.again l₁ _ l₂ heq hp) hlost
  · intro hno
    -- A repeated free changes nothing as long as its payload is not exposed.
    have hagain : ∀ l₁ p l₂, l = l₁ ++ p :: l₂ → p ∈ l₁ → ∀ T' R',
        Freed header {b | b ∈ blocks} T l₁ (freeAll header h l₁) T' R' →
          free header (freeAll header h l₁) p = freeAll header h l₁ :=
            fun l₁ p l₂ heq hp T' R' hf => by
      obtain ⟨a, k, hpay⟩ := hl p (heq ▸ List.mem_append_right _ List.mem_cons_self)
      obtain ⟨s, ha, hu, rfl, rfl, -⟩ := hinv.payload_iff.1 hpay
      refine (hf.free_eq_iff hinv ha hu hp).2 fun hlost => ?_
      obtain ⟨q, hex⟩ := (hexposes _).2 ⟨l₁, l₂, heq, hp, a, s, ha, hu, rfl, hlost⟩
      exact hno _ q hex
    have hfreed := hinv.freed_of_again hl hagain
    have hagain' : ∀ l₁ p l₂, l = l₁ ++ p :: l₂ → p ∈ l₁ →
        free header (freeAll header h l₁) p = freeAll header h l₁ := fun l₁ p l₂ heq hp => by
      obtain ⟨T', R', hf⟩ := hfreed l₁ _ heq
      exact hagain l₁ p l₂ heq hp T' R' hf
    refine ⟨hagain', ?_, fun l₁ l₂ heq => ?_⟩
    · -- By induction from the end: only the first free of each payload counts.
      have hfirsts : ∀ l₁ l₂, l = l₁ ++ l₂ → freeAll header h l₁ = freeAll header h (firsts l₁) :=
        fun l₁ => by
        induction l₁ using List.reverseRecOn with
        | nil => exact fun _ _ => rfl
        | append_singleton l₁ x ih =>
          intro l₂ heq
          rw [List.append_assoc, List.singleton_append] at heq
          rw [freeAll_concat, firsts_concat]
          split_ifs with hx
          · rw [hagain' l₁ x l₂ heq hx, ih _ heq]
          · rw [freeAll_concat, ih _ heq]
      exact hfirsts l [] (List.append_nil l).symm
    · obtain ⟨T', R', hf⟩ := hfreed l₁ l₂ heq
      exact ⟨T', R', hf.inv⟩

/-- A heap of two allocations, the header of the second one being longer than a descriptor: freed
    between two frees of the second, the first one leads to a bogus descriptor at 1028. -/
theorem exists_payloads : ∃ h, WellFormed 64 ⟨h, [(1000, 2000)], []⟩ ∧
    Payload ⟨h, [(1000, 2000)], []⟩ 1000 24 1024 ∧ Payload ⟨h, [(1000, 2000)], []⟩ 1028 28 1056 ∧
    (freeAll 64 h [1056, 1024]).mem 1036 = 0 ∧
    (freeAll 64 h [1056, 1024, 1056]).mem 1036 = 1008 := by
  -- The heap is run in the kernel; what is left to prove is that it is well formed.
  have hrun : (allocate 64 (addHeapBlock 64 ⟨fun _ => 0, 0, 0⟩ 1000 2000) 4).map (fun r =>
      (findAligned 64 r.2.mem (alignUp 4 4) (2 ^ 4) (2 ^ 32) (r.2.mem.next 64) 0,
        payloadAddr r.2.mem 1028, alignedAddr r.2.mem 1028 (2 ^ 4), r.2.mem.availableSize 1028)) =
      some (some (some 1036, 1056), 1052, 1056, 948) := by
    decide +kernel
  have hrun' : (allocate 64 (addHeapBlock 64 ⟨fun _ => 0, 0, 0⟩ 1000 2000) 4).bind (fun r =>
      (allocateAligned 64 r.2 4 (2 ^ 4)).map fun q =>
        [q.2.mem.right 1000, q.2.mem.next (doubleList 1000), q.2.mem.headerOffset 1000,
        q.2.mem.next (doubleList 1028), q.2.mem.headerOffset 1028,
        (freeAll 64 q.2 [1056, 1024]).mem 1036, (freeAll 64 q.2 [1056, 1024, 1056]).mem 1036]) =
      some [1028, 0, 24, 0, 28, 0, 1008] := by
    decide +kernel
  obtain ⟨⟨p, h₁⟩, hfirst, hrun'⟩ := Option.bind_eq_some_iff.1 hrun'
  obtain ⟨⟨q, h₂⟩, hsecond, hrun'⟩ := Option.map_eq_some_iff.1 hrun'
  rw [hfirst, Option.map_some, Option.some_inj] at hrun
  simp only [Prod.mk.injEq] at hrun
  simp only [List.cons.injEq, and_true] at hrun'
  obtain ⟨htakes, hpay, haddr, havail⟩ := hrun
  obtain ⟨hright, hnext, hoff, hnext', hoff', hmem⟩ := hrun'
  have hcall :
      call 64 (addHeapBlock 64 ⟨fun _ => 0, 0, 0⟩ 1000 2000) (.allocate 4) = some (p, h₁) := hfirst
  have hcall' : call 64 h₁ (.allocateAligned 4 4) = some (q, h₂) := hsecond
  -- The aligned request takes the segment at 1028, where nothing wraps.
  have hno : ∀ p, Takes 64 h₁.mem 4 (2 ^ 4) p → NoOverflow h₁.mem 4 4 (listEntry p) :=
    fun p ⟨r, hr⟩ => by
    obtain rfl : 1036 = p :=
      Option.some.inj (Prod.mk.inj (Option.some.inj (htakes.symm.trans hr))).1
    rw [show listEntry 1036 = 1028 by decide]
    exact ⟨by decide, by rw [hpay]; decide, by rw [haddr, hpay, havail]; decide⟩
  have hout : Outside 64 {b | b ∈ [(1000, 2000)]} ∅ := ⟨by simp, by simp⟩
  obtain ⟨T, R, hinv⟩ := wellFormed_block
  classical
  have hcareful :
      Careful 64 [(1000, 2000)] ∅ (addHeapBlock 64 ⟨fun _ => 0, 0, 0⟩ 1000 2000) (.allocate 4) :=
    ⟨(by decide : 4 < 2 ^ 32), by simp⟩
  have hcareful' : Careful 64 [(1000, 2000)] ∅ h₁ (.allocateAligned 4 4) :=
    ⟨(by decide : 4 < 2 ^ 32 ∧ 4 < 32), fun n k heq => by
      obtain ⟨rfl, rfl⟩ := Call.allocateAligned.inj heq
      exact hno⟩
  obtain ⟨T₁, R₁, hinv₁⟩ := hinv.call hout hcareful hcall
  obtain ⟨T₂, R₂, hinv₂⟩ := hinv₁.call hout hcareful' hcall'
  have hchain : InChain h₂.mem 1000 1028 := hright ▸ .right .start (by rw [hright]; decide)
  exact ⟨h₂, ⟨T₂, R₂, hinv₂⟩,
    ⟨⟨_, (1000, 2000), by simp, .start, not_not_intro hnext, hoff, rfl⟩, rfl, by decide⟩,
    ⟨⟨_, (1000, 2000), by simp, hchain, not_not_intro hnext', hoff', rfl⟩, rfl, by decide⟩, hmem⟩

/-- A pointer is freed twice, with nothing in between. -/
theorem ignoresRepeats_twice : ∃ h, Payload ⟨h, [(1000, 2000)], []⟩ 1000 24 1024 ∧
    IgnoresRepeats 64 h [(1000, 2000)] [1024, 1024] := by
  obtain ⟨h, hwf, hpay, -⟩ := exists_payloads
  have hl : ∀ p ∈ [1024, 1024], ∃ a k, Payload ⟨h, [(1000, 2000)], []⟩ a k p := fun p hp => by
    obtain rfl : p = 1024 := by simpa using hp
    exact ⟨1000, 24, hpay⟩
  refine ⟨h, hpay, (ignoresRepeats_iff hwf hl).2 ?_⟩
  rintro p q ⟨-, u, v, heq, hp, hq, -⟩
  have hall : ∀ x ∈ u ++ q :: v, x = 1024 := by simp [← heq]
  exact hq (hall q (by simp) ▸ hall p (List.mem_append_left _ hp) ▸ hp)

/-- The aligned allocation is freed, then the one on its left, and then the aligned one again: the
    heap changes. -/
theorem not_ignoresRepeats : ∃ h, WellFormed 64 ⟨h, [(1000, 2000)], []⟩ ∧
    (∀ p ∈ [1056, 1024, 1056], ∃ a k, Payload ⟨h, [(1000, 2000)], []⟩ a k p) ∧
    ¬IgnoresRepeats 64 h [(1000, 2000)] [1056, 1024, 1056] := by
  obtain ⟨h, hwf, hpay, hpay', hmem, hmem'⟩ := exists_payloads
  refine ⟨h, hwf, fun p hp => ?_, fun hi => ?_⟩
  · rcases (by simpa using hp : p = 1056 ∨ p = 1024 ∨ p = 1056) with rfl | rfl | rfl
    exacts [⟨_, _, hpay'⟩, ⟨_, _, hpay⟩, ⟨_, _, hpay'⟩]
  · have hsame := congrArg (fun h => h.mem 1036) (hi.again [1056, 1024] 1056 [] rfl (by simp))
    exact absurd (hmem'.symm.trans (hsame.trans hmem)) (by decide)

end Heap

end DemoOs
