import Mathlib.Order.Interval.Finset.Nat
import DemoOs.Mm.HeapRep

/-!
# The operations of the heap

The invariant of the heap (`Heap.Inv`): its memory represents a coalesced tiling of its blocks, all
free segments of which are in the free ring. Each operation keeps it, and does to the segments in
use what it is for:

* `allocate_spec`: `allocate` returns, with a new segment in use or, if no free segment is large
  enough, with nothing changed;
* `free_spec`: `free` gives a segment in use back;
* `addHeapBlock_spec`: the new block is one free segment.
-/

namespace DemoOs

namespace Heap

open Mem

/-- The invariant of a heap with the blocks `B`. -/
structure Inv (header : ℕ) (B : Set (ℕ × ℕ)) (h : Heap) (T : Tiling) (R : List ℕ) : Prop where
  rep : Rep header B h.mem T R
  /-- All free segments are in the free ring. -/
  all : ∀ ⦃a s⦄, T a = some s → s.free → a ∈ R
  coalesced : T.Coalesced
  start : ∀ b ∈ B, h.start ≤ b.1
  stop : ∀ b ∈ B, b.2 ≤ h.stop

variable {header : ℕ} {B : Set (ℕ × ℕ)} {T : Tiling} {m : Mem} {h : Heap} {R : List ℕ} {a : ℕ}
  {s : Seg}

/-! ## The walk along the free ring -/

/-- A walk from the node before the segments `l` finds the first of them which passes its test. -/
theorem Rep.walk_eq (hrep : Rep header B m T R) {f : ℕ → ℕ → Option (Option ℕ)} {test : ℕ → Bool}
    (hf : ∀ fuel p, f (fuel + 1) p = if p = header then some none else
      if test (listEntry p) then some (some p) else f fuel (m.next p))
    {l : List ℕ} (hl : ∀ a ∈ l, a ∈ R) {p fuel : ℕ}
    (hchain : (p :: (l.map (· + 8) ++ [header])).IsChain m.linksOf.Linked)
    (hfuel : l.length < fuel) :
    f fuel (m.next p) = some ((l.find? test).map (· + 8)) := by
  induction l generalizing p fuel with
  | nil =>
    obtain ⟨fuel, rfl⟩ := Nat.exists_eq_succ_of_ne_zero (Nat.ne_of_gt hfuel)
    rw [List.map_nil, List.nil_append, List.isChain_pair] at hchain
    rw [(ptr_eq_some.1 hchain.1).1, hf, if_pos rfl]
    rfl
  | cons a l ih =>
    obtain ⟨fuel, rfl⟩ := Nat.exists_eq_succ_of_ne_zero (Nat.ne_of_gt (Nat.zero_lt_of_lt hfuel))
    rw [List.map_cons, List.cons_append, List.isChain_cons_cons] at hchain
    obtain ⟨s, ha, -⟩ := hrep.mem_ring a (hl a List.mem_cons_self)
    have hne : a + 8 ≠ header := by
      have h₁ := hrep.layout.header_apart ha
      have h₂ := hrep.layout.bound ha
      omega
    rw [(ptr_eq_some.1 hchain.1.1).1, hf, if_neg hne, hrep.layout.listEntry_eq ha, List.find?_cons]
    by_cases hk : test a
    · simp [hk]
    · simp only [hk, Bool.false_eq_true, if_false]
      exact ih (fun b hb => hl b (List.mem_cons_of_mem _ hb)) hchain.2
        (Nat.lt_of_succ_lt_succ hfuel)

/-- The free ring has fewer segments than there are addresses. -/
theorem Rep.length_lt (hrep : Rep header B m T R) : R.length < 2 ^ 32 := by
  have hsub : R.toFinset ⊆ Finset.Ioo 0 (2 ^ 32) := by
    intro a ha
    obtain ⟨s, hs, -⟩ := hrep.mem_ring a (List.mem_toFinset.1 ha)
    have := hrep.layout.bound hs
    exact Finset.mem_Ioo.2 ⟨by omega, by omega⟩
  have := Finset.card_le_card hsub
  rw [List.toFinset_card_of_nodup hrep.nodup, Nat.card_Ioo] at this
  omega

/-- A walk along the free ring finds the first segment which passes its test. -/
theorem Rep.walk (hrep : Rep header B m T R) {f : ℕ → ℕ → Option (Option ℕ)} {test : ℕ → Bool}
    (hf : ∀ fuel p, f (fuel + 1) p = if p = header then some none else
      if test (listEntry p) then some (some p) else f fuel (m.next p)) :
    f (2 ^ 32) (m.next header) = some ((R.find? test).map (· + 8)) :=
  hrep.walk_eq hf (fun _ ha => ha) ((Cycle.chain_coe_cons _ _ _).1 hrep.ring.linked) hrep.length_lt

theorem Rep.findFree (hrep : Rep header B m T R) (k : ℕ) :
    Heap.findFree header m k (2 ^ 32) (m.next header) =
      some ((R.find? fun a => k ≤ m.availableSize a).map (· + 8)) :=
  hrep.walk fun fuel p => by simp only [Heap.findFree, ge_iff_le, decide_eq_true_eq]

/-! ## Allocation -/

theorem alignUp_four_dvd (n : ℕ) : 4 ∣ alignUp n 4 := by
  rw [show (4 : ℕ) = 2 ^ 2 from rfl, alignUp_two_pow (by decide)]
  exact Nat.dvd_mul_left ..

/-- Removing a segment from the free ring leaves all other free segments there. -/
theorem all_take (hall : ∀ ⦃a s⦄, T a = some s → s.free → a ∈ R) (a : ℕ) (s : Seg) ⦃c : ℕ⦄
    ⦃u : Seg⦄ (hc : T.setFree 24 a s false c = some u) (hu : u.free) : c ∈ R.erase a := by
  rw [T.setFree_false_apply] at hc
  split_ifs at hc with hca
  · obtain rfl := Option.some.inj hc
    cases hu
  · exact (List.mem_erase_of_ne hca).2 (hall hc hu)

/-- A free segment is used whole. -/
theorem Inv.take (hinv : Inv header B h T R) (ha : T a = some s) (hf : s.free) :
    Inv header B { h with mem := h.mem.delNodeFromRingDoubleList (a + 8) }
      (T.setFree 24 a s false) (R.erase a) where
  rep := hinv.rep.take ha (hinv.all ha hf)
  all := all_take hinv.all a s
  coalesced := hinv.coalesced.take a s
  start := hinv.start
  stop := hinv.stop

/-- A free segment is cut, the rest of it entering the free ring, and its first part is used. -/
theorem Inv.cut_take (hinv : Inv header B h T R) (ha : T a = some s) (hf : s.free) {k : ℕ}
    (hk : k + 24 ≤ s.avail) (h4 : 4 ∣ k) :
    ∃ T' R', Inv header B { h with mem := (link header (cut h.mem a k)
        (a + 24 + k)).delNodeFromRingDoubleList (a + 8) } T' R' ∧
      T'.used = Function.update T.used a (some (24, k)) := by
  have hwf := hinv.rep.layout.wf
  have hoff := hwf.free_header ha hf
  have hcut := hinv.rep.cut ha hk
    (Nat.dvd_add (Nat.dvd_add (hinv.rep.layout.aligned ha) (hoff ▸ by decide)) h4)
  have hself := hwf.split_self (by decide) ha hk
  have hnew := hwf.split_new (by decide) ha hk
  rw [hoff] at hnew
  have hfresh : a + 24 + k ∉ R := hoff ▸ hinv.rep.not_mem_cut ha hk
  obtain ⟨R', hR', hlink⟩ := hcut.link hnew rfl hfresh
  have hall : ∀ ⦃c u⦄, T.split 24 a s k c = some u → u.free → c ∈ R' := by
    intro c u hc hu
    rw [hwf.split_apply (by decide) ha hk, hoff] at hc
    rw [hR']
    split_ifs at hc with h₁ h₂ h₃
    · exact .inr (h₁ ▸ hinv.all ha hf)
    · exact .inl h₂
    · obtain ⟨t, ht, rfl⟩ := Option.map_eq_some_iff.1 hc
      exact .inr (hinv.all ht hu)
    · exact .inr (hinv.all hc hu)
  refine ⟨_, _, ⟨hlink.take hself ((hR' a).2 (.inr (hinv.all ha hf))), all_take hall a _,
    hinv.coalesced.split_take hwf (by decide) ha hk hf _, hinv.start, hinv.stop⟩, ?_⟩
  rw [Tiling.used_take, hwf.used_split (by decide) ha hf hk, hoff]

theorem Rep.allocate_of_none (hrep : Rep header B h.mem T R) {n : ℕ}
    (hfind : (R.find? fun a => alignUp n 4 ≤ h.mem.availableSize a) = none) :
    allocate header h n = some (0, h) := by
  rw [allocate, hrep.findFree, hfind]
  rfl

/-- The first segment large enough is taken, and what it has too much is cut off. -/
theorem Rep.allocate_of_some (hrep : Rep header B h.mem T R) {n : ℕ} (ha : T a = some s)
    (hf : s.free)
    (hfind : (R.find? fun a => alignUp n 4 ≤ h.mem.availableSize a) = some a) :
    alignUp n 4 ≤ s.avail ∧ allocate header h n = some (a + 24, { h with
      mem := (if s.avail - alignUp n 4 > 24 then
          Heap.link header (Heap.cut h.mem a (alignUp n 4)) (a + 24 + alignUp n 4)
        else h.mem).delNodeFromRingDoubleList (a + 8) }) := by
  have hle : alignUp n 4 ≤ s.avail := by
    have := List.find?_some hfind
    rwa [hrep.availableSize_eq ha, decide_eq_true_iff] at this
  have hoff := hrep.layout.wf.free_header ha hf
  obtain ⟨-, -, hlt⟩ := hrep.layout.bound ha
  have hret : word (a + h.mem.headerOffset a) = a + 24 := by
    rw [hrep.headerOffset_eq ha, hoff, word_eq (by omega)]
  have hleft : wordSub (h.mem.availableSize a) (alignUp n 4) = s.avail - alignUp n 4 := by
    rw [hrep.availableSize_eq ha, wordSub_eq hle (by omega)]
  refine ⟨hle, ?_⟩
  rw [allocate, hrep.findFree, hfind]
  simp only [Option.map_some, hrep.layout.listEntry_eq ha, hret, hleft, sizeofHeapSegmentDesc,
    word_eq (show a + 24 + alignUp n 4 < 2 ^ 32 by omega)]

/-- What `allocate` does: with no free segment of the size needed it returns null; otherwise it
    returns the payload of a segment now in use, and at least that large. -/
theorem allocate_spec (hinv : Inv header B h T R) (n : ℕ) :
    ∃ p h', allocate header h n = some (p, h') ∧
      (p = 0 ∧ h' = h ∧ (∀ a s, T a = some s → s.free → s.avail < alignUp n 4) ∨
      ∃ a s avail T' R', T a = some s ∧ s.free ∧ p = a + 24 ∧ alignUp n 4 ≤ avail ∧
        avail ≤ s.avail ∧ Inv header B h' T' R' ∧
          T'.used = Function.update T.used a (some (24, avail))) := by
  cases hfind : R.find? fun a => alignUp n 4 ≤ h.mem.availableSize a with
  | none =>
    refine ⟨0, h, hinv.rep.allocate_of_none hfind, .inl ⟨rfl, rfl, fun a s ha hf => ?_⟩⟩
    have := List.find?_eq_none.1 hfind a (hinv.all ha hf)
    rwa [hinv.rep.availableSize_eq ha, decide_eq_true_iff, Nat.not_le] at this
  | some a =>
    obtain ⟨s, ha, hf⟩ := hinv.rep.mem_ring a (List.mem_of_find?_eq_some hfind)
    obtain ⟨hle, heq⟩ := hinv.rep.allocate_of_some ha hf hfind
    refine ⟨_, _, heq, .inr ?_⟩
    split_ifs with hgt
    · obtain ⟨T', R', hinv', hused⟩ := hinv.cut_take ha hf (k := alignUp n 4) (by omega)
        (alignUp_four_dvd n)
      exact ⟨a, s, alignUp n 4, T', R', ha, hf, rfl, le_rfl, hle, hinv', hused⟩
    · refine ⟨a, s, s.avail, _, _, ha, hf, rfl, hle, le_rfl, hinv.take ha hf, ?_⟩
      rw [Tiling.used_take, hinv.rep.layout.wf.free_header ha hf]

/-! ## Deallocation -/

/-- A segment with list links is a free one. -/
theorem Rep.links_ne_zero (hrep : Rep header B m T R)
    (hall : ∀ ⦃a s⦄, T a = some s → s.free → a ∈ R) (ha : T a = some s) :
    (m.next (doubleList a) ≠ 0 ↔ s.free) ∧ (m.prev (doubleList a) ≠ 0 ↔ s.free) := by
  rw [hrep.layout.doubleList_eq ha]
  cases hf : s.free with
  | true =>
    have hmem : a + 8 ∈ ((header :: R.map (· + 8) : List ℕ) : Cycle ℕ) := by
      simp [hall ha hf]
    obtain ⟨p, -, hp⟩ := hrep.ring.exists_prev hmem
    obtain ⟨n, -, hn⟩ := hrep.ring.exists_next hmem
    have hp' := ptr_eq_some.1 hp.2
    have hn' := ptr_eq_some.1 hn.1
    exact ⟨iff_of_true (hn'.1 ▸ hn'.2) rfl, iff_of_true (hp'.1 ▸ hp'.2) rfl⟩
  | false =>
    obtain ⟨h₁, h₂⟩ := hrep.null ha hf
    rw [hrep.prev_eq ha, h₂, Mem.next, h₁]
    simp

/-- The first half of `free` takes over a free right neighbour. -/
theorem Inv.mergeRight_eq (hinv : Inv header B h T R) (ha : T a = some s) :
    Heap.mergeRight h.mem a =
    if (T s.right).any Seg.free then merge (h.mem.delNodeFromRingDoubleList (s.right + 8)) a s.right
    else h.mem := by
  have hwf := hinv.rep.layout.wf
  rw [Heap.mergeRight, hinv.rep.right_eq ha]
  cases ht : T s.right with
  | none =>
    have hr : s.right = 0 := by
      by_contra hr
      obtain ⟨-, t, ht', -⟩ := hwf.right ha hr
      rw [ht] at ht'
      cases ht'
    rw [if_neg (not_not_intro hr ∘ And.left), Option.any_none, if_neg Bool.false_ne_true]
  | some t =>
    rw [hinv.rep.layout.doubleList_eq ht, Option.any_some]
    refine if_congr ?_ rfl rfl
    rw [and_iff_right (hwf.right_pos ht), ← hinv.rep.layout.doubleList_eq ht]
    exact (hinv.rep.links_ne_zero hinv.all ht).2

/-- The second half of `free` has a free left neighbour take the segment over. -/
theorem Inv.mergeLeft_eq (hinv : Inv header B h T R) (ha : T a = some s) :
    Heap.mergeLeft header h.mem a =
    if (T s.left).any Seg.free then merge h.mem s.left a else Heap.release header h.mem a := by
  have hwf := hinv.rep.layout.wf
  rw [Heap.mergeLeft, hinv.rep.left_eq ha]
  cases ht : T s.left with
  | none =>
    have hl : s.left = 0 := by
      by_contra hl
      obtain ⟨t, ht', -⟩ := hwf.left ha hl
      rw [ht] at ht'
      cases ht'
    rw [if_neg (not_not_intro hl ∘ And.left), Option.any_none, if_neg Bool.false_ne_true]
  | some t =>
    have hl : s.left ≠ 0 := hwf.ne_zero ht
    rw [Option.any_some]
    refine if_congr ?_ rfl rfl
    rw [and_iff_right hl]
    exact (hinv.rep.links_ne_zero hinv.all ht).2

/-- The segment `s` at `a`, in use, has become `s'`: it has taken over its right neighbour if that
    was free. -/
structure Joined (T T' : Tiling) (a : ℕ) (s s' : Seg) : Prop where
  seg : T' a = some s'
  used : s'.free = false
  hoff : s'.hoff = s.hoff
  left : s'.left = s.left
  /-- No descriptor is new. -/
  header : ∀ ⦃c u⦄, T' c = some u → ∃ v, T c = some v ∧ u.hoff = v.hoff
  gone : (T s.right).any Seg.free → T' s.right = none
  left_seg : T' s.left = T s.left
  right : ∀ t, T' s'.right = some t → t.free = false
  used_eq : T'.used = Function.update T.used a (some (s'.hoff, s'.avail))

/-- A segment in use with a free right neighbour takes it over. -/
theorem Inv.mergeRight (hinv : Inv header B h T R) (ha : T a = some s) (hu : s.free = false) :
    ∃ T' R' s', Inv header B { h with mem := Heap.mergeRight h.mem a } T' R' ∧
      Joined T T' a s s' := by
  have hwf := hinv.rep.layout.wf
  rw [hinv.mergeRight_eq ha]
  split_ifs with hfree
  · -- The neighbour is in use, out of the free ring, when it is taken over.
    obtain ⟨t, ht, htf⟩ := (Option.any_eq_true _ _).1 hfree
    have htake := hinv.take ht htf
    have hne := (hwf.right_ne (by decide) ha).symm
    have ha' : T.setFree 24 s.right t false a = some s := by
      rw [T.setFree_false_apply, if_neg hne, ha]
    have ht' : T.setFree 24 s.right t false s.right = some { t with free := false } := by
      rw [T.setFree_false_apply, if_pos rfl]
    have hwf' := htake.rep.layout.wf
    have hmerge := htake.rep.merge ha' ht' (htake.rep.not_mem_of_used ht' rfl)
    have happ := hwf'.absorb_apply (by decide) ha' ht'
    have h₁ : t.right ≠ a := hwf.right_right_ne (by decide) ha ht
    have h₂ : t.right ≠ s.right := hwf.right_ne (by decide) ht
    refine ⟨_, _, _, ⟨hmerge, ?_, ?_, hinv.start, hinv.stop⟩,
      ⟨hwf'.absorb_self (by decide) ha' ht', hu, rfl, rfl, ?_, fun _ => ?_, ?_, ?_, ?_⟩⟩
    · intro c u hc huf
      rw [happ] at hc
      split_ifs at hc with h₁ h₂ h₃
      · rw [← Option.some.inj hc, hu] at huf
        cases huf
      · obtain ⟨v, hv, rfl⟩ := Option.map_eq_some_iff.1 hc
        exact htake.all hv huf
      · exact htake.all hc huf
    · refine htake.coalesced.absorb hwf' (by decide) ha' ht' fun _ _ hsf => ?_
      rw [hu] at hsf
      cases hsf
    · intro c u hc
      rw [happ] at hc
      split_ifs at hc with h₃ h₄ h₅
      · exact ⟨s, h₃ ▸ ha, by rw [← Option.some.inj hc]⟩
      · obtain ⟨v, hv, rfl⟩ := Option.map_eq_some_iff.1 hc
        rw [T.setFree_false_apply, if_neg h₄] at hv
        exact ⟨v, hv, rfl⟩
      · rw [T.setFree_false_apply, if_neg h₄] at hc
        exact ⟨u, hc, rfl⟩
    · rw [happ, if_neg hne.symm, if_pos rfl]
    · by_cases hl : s.left = 0
      · rw [hl, hmerge.layout.wf.pos, hwf.pos]
      · -- The left neighbour is before both of them.
        obtain ⟨w, hw, -, he, -⟩ := hwf.left_end ha hl
        have h₃ := hinv.rep.layout.bound hw
        have h₄ := hinv.rep.layout.right_eq ha
        have h₅ := hinv.rep.layout.right_eq ht
        have h₆ := hinv.rep.layout.bound ht
        rw [Seg.len] at he
        rw [happ, if_neg (by omega), if_neg (by omega), if_neg (show s.left ≠ t.right by omega),
          T.setFree_false_apply, if_neg (by omega)]
    · -- The neighbour of the neighbour is not free, as the tiling was coalesced.
      intro v hv
      by_contra hvf
      simp only [happ] at hv
      rw [if_neg h₁, if_neg h₂, if_pos trivial] at hv
      obtain ⟨w, hw, rfl⟩ := Option.map_eq_some_iff.1 hv
      rw [T.setFree_false_apply, if_neg h₂] at hw
      exact hinv.coalesced ht hw htf (by simpa using hvf)
    · have hself : Function.update T.used s.right none = T.used :=
        Function.update_eq_self_iff.2 (Tiling.used_of_free ht htf).symm
      rw [Tiling.used_absorb, Tiling.used_take, Function.update_idem, hself, hu]
      rfl
  · -- There is no free neighbour, and nothing happens.
    refine ⟨T, R, s, hinv, ha, hu, rfl, rfl, fun c u hc => ⟨u, hc, rfl⟩,
      fun h => absurd h hfree, rfl, fun v hv => Tiling.free_eq_false hfree hv, ?_⟩
    rw [← Tiling.used_of_used ha hu, Function.update_eq_self]

/-- A segment in use, whose right neighbour is in use, is given back: its left neighbour takes it
    over if it is free. -/
theorem Inv.mergeLeft (hinv : Inv header B h T R) (ha : T a = some s) (hu : s.free = false)
    (hright : ∀ t, T s.right = some t → t.free = false) :
    ∃ T' R', Inv header B { h with mem := Heap.mergeLeft header h.mem a } T' R' ∧
      (∀ ⦃c u⦄, T' c = some u → ∃ v, T c = some v ∧ u.hoff ≤ v.hoff) ∧
      T'.used = Function.update T.used a none := by
  have hwf := hinv.rep.layout.wf
  have haR := hinv.rep.not_mem_of_used ha hu
  rw [hinv.mergeLeft_eq ha]
  split_ifs with hfree
  · -- The free neighbour takes the segment over and stays in the ring.
    obtain ⟨t, ht, htf⟩ := (Option.any_eq_true _ _).1 hfree
    have hta := (hwf.of_left ha ht).1
    subst hta
    have happ := hwf.absorb_apply (by decide) ht ha
    refine ⟨_, R, ⟨hinv.rep.merge ht ha haR, fun c u hc huf => ?_, ?_, hinv.start, hinv.stop⟩,
      fun c u hc => ?_, ?_⟩
    · rw [happ] at hc
      split_ifs at hc with h₁ h₂ h₃
      · exact h₁ ▸ hinv.all ht htf
      · obtain ⟨v, hv, rfl⟩ := Option.map_eq_some_iff.1 hc
        exact hinv.all hv huf
      · exact hinv.all hc huf
    · refine hinv.coalesced.absorb hwf (by decide) ht ha fun u hv _ => ?_
      rw [hright u hv]
      exact Bool.false_ne_true
    · rw [happ] at hc
      split_ifs at hc with h₁ h₂ h₃
      · exact ⟨t, h₁ ▸ ht, by rw [← Option.some.inj hc]⟩
      · obtain ⟨v, hv, rfl⟩ := Option.map_eq_some_iff.1 hc
        exact ⟨v, hv, le_rfl⟩
      · exact ⟨u, hc, le_rfl⟩
    · have hne : s.left ≠ t.right := (hwf.right_ne (by decide) ht).symm
      rw [Tiling.used_absorb, htf, if_pos rfl, Function.update_eq_self_iff,
        Function.update_of_ne hne, Tiling.used_of_free ht htf]
  · -- Released on its own, the segment is between two neighbours in use.
    have hleft : ∀ t, T s.left = some t → t.free = false :=
      fun t ht => Tiling.free_eq_false hfree ht
    obtain ⟨R', hR', hrep⟩ := hinv.rep.release ha hu
    refine ⟨_, R', ⟨hrep, fun c u hc huf => ?_, ?_, hinv.start, hinv.stop⟩, fun c u hc => ?_,
      T.used_release a s⟩
    · rw [T.setFree_true_apply] at hc
      rw [hR']
      split_ifs at hc with hca
      exacts [.inl hca, .inr (hinv.all hc huf)]
    · exact hinv.coalesced.release hwf (by decide) ha hleft hright
    · rw [T.setFree_true_apply] at hc
      split_ifs at hc with hca
      · exact ⟨s, hca ▸ ha, by rw [← Option.some.inj hc]; exact hwf.header ha⟩
      · exact ⟨u, hc, le_rfl⟩

/-- The payload of a segment in use passes the checks of `free`. -/
theorem Inv.free_eq (hinv : Inv header B h T R) (ha : T a = some s) (hu : s.free = false) :
    free header h (a + s.hoff) =
      { h with mem := Heap.mergeLeft header (Heap.mergeRight h.mem a) a } := by
  obtain ⟨hpos, hoff, hlt⟩ := hinv.rep.layout.bound ha
  obtain ⟨hb, h₁, h₂⟩ := hinv.rep.layout.wf.block ha
  have hstart := hinv.start _ hb
  have hstop := hinv.stop _ hb
  rw [Seg.len] at h₂
  have htag : h.mem (wordSub (a + s.hoff) 4) = s.hoff := by
    rw [wordSub_eq (by omega) (by omega)]
    exact (hinv.rep.seg ha).tag
  have hnode : wordSub (a + s.hoff) s.hoff = a := by
    rw [wordSub_eq (by omega) (by omega), Nat.add_sub_cancel]
  have hnull : ¬h.mem.next (doubleList a) ≠ 0 := by
    rw [(hinv.rep.links_ne_zero hinv.all ha).1, hu]
    exact Bool.false_ne_true
  simp only at hstart hstop
  simp only [free, htag, hnode, sizeofHeapSegmentDesc]
  rw [if_neg (by omega), if_neg (by omega), if_neg (by omega), if_neg hnull]

/-- What `free` does with the payload of a segment in use. -/
theorem free_spec (hinv : Inv header B h T R) (ha : T a = some s) (hu : s.free = false) :
    ∃ T' R', Inv header B (free header h (a + s.hoff)) T' R' ∧
      (∀ ⦃c u⦄, T' c = some u → ∃ v, T c = some v ∧ u.hoff ≤ v.hoff) ∧
      T'.used = Function.update T.used a none := by
  obtain ⟨T₁, R₁, s₁, hinv₁, hj⟩ := hinv.mergeRight ha hu
  obtain ⟨T₂, R₂, hinv₂, hheader, hused⟩ := hinv₁.mergeLeft hj.seg hj.used hj.right
  refine ⟨T₂, R₂, hinv.free_eq ha hu ▸ hinv₂, fun c u hc => ?_, ?_⟩
  · obtain ⟨v, hv, hle⟩ := hheader hc
    obtain ⟨w, hw, he⟩ := hj.header hv
    exact ⟨w, hw, he ▸ hle⟩
  · rw [hused, hj.used_eq, Function.update_idem]

theorem free_null (header : ℕ) (h : Heap) : free header h 0 = h := if_pos rfl

/-! ## Clients -/

/-- The owner of a segment in use may store what it likes in its payload. -/
theorem Inv.store (hinv : Inv header B h T R) (ha : T a = some s) {x : ℕ} (v : ℕ)
    (hx : a + s.hoff ≤ x) (hx' : x < a + s.hoff + s.avail) :
    Inv header B { h with mem := h.mem.write x v } T R := by
  have hrep := hinv.rep
  -- No header of a segment is touched, nor the header of the free ring.
  have hseg : ∀ {c u}, T c = some u → ∀ o < u.hoff, h.mem.write x v (c + o) = h.mem (c + o) := by
    intro c u hc o ho
    rw [write_apply, if_neg]
    by_cases hca : c = a
    · subst hca
      rw [ha] at hc
      rw [← Option.some.inj hc] at ho
      omega
    · have := hrep.layout.sep hc ha hca
      omega
  have hlinks : ∀ {c u}, T c = some u → h.mem.write x v (c + 8) = h.mem (c + 8) ∧
      h.mem.write x v (c + 12) = h.mem (c + 12) := by
    intro c u hc
    have := hrep.layout.bound hc
    exact ⟨hseg hc 8 (by omega), hseg hc 12 (by omega)⟩
  have happart := hrep.layout.header_apart ha
  refine ⟨⟨hrep.layout, fun c u hc => ?_, hrep.ring_congr ?_ fun c hc => ?_, hrep.mem_ring,
    fun c u hc hu => ?_⟩, hinv.all, hinv.coalesced, hinv.start, hinv.stop⟩
  · exact (hrep.seg hc).congr (hrep.layout.bound hc).2.1 fun o ho _ _ => hseg hc o ho
  · exact ⟨(write_apply ..).trans (if_neg (by omega)), (write_apply ..).trans (if_neg (by omega))⟩
  · obtain ⟨u, hu, -⟩ := hrep.mem_ring c hc
    exact hlinks hu
  · exact ⟨(hlinks hc).1.trans (hrep.null hc hu).1, (hlinks hc).2.trans (hrep.null hc hu).2⟩

/-! ## Adding a block -/

/-- The ranges `addHeapBlock` may be given: word aligned, in the address space, large enough for a
    descriptor, apart from the blocks `B` and from the header of the free ring. -/
structure ValidRange (header : ℕ) (B : Set (ℕ × ℕ)) (l r : ℕ) : Prop where
  aligned_from : 4 ∣ l
  aligned_to : 4 ∣ r
  size : l + 24 ≤ r
  lt : r < 2 ^ 32
  apart : ∀ b ∈ B, b.2 ≤ l ∨ r ≤ b.1
  header : header + 8 ≤ l ∨ r ≤ header

/-- The heap after its free ring was initialised, if need be. -/
theorem addHeapBlock_eq {h' : Heap} {l r : ℕ}
    (hh : (if h.mem.next header = 0 then ⟨h.mem.initRingDoubleList header, l, r⟩ else h) = h') :
    addHeapBlock header h l r =
      ⟨((((h'.mem.setRight l 0).setLeft l 0).setHeaderOffset l
        sizeofHeapSegmentDesc).setAvailableSize
        l (wordSub (wordSub r l) sizeofHeapSegmentDesc)).addNodeToRingDoubleListTail header
        (doubleList l), if h'.start > l then l else h'.start,
        if h'.stop < r then r else h'.stop⟩ := by
  rw [← hh]
  rfl

theorem Inv.addBlock (hinv : Inv header B h T R) {l r : ℕ} (hl : 0 < l)
    (hr : ValidRange header B l r) : Inv header (insert (l, r) B)
      ⟨((((h.mem.setRight l 0).setLeft l 0).setHeaderOffset l
        sizeofHeapSegmentDesc).setAvailableSize
        l (wordSub (wordSub r l) sizeofHeapSegmentDesc)).addNodeToRingDoubleListTail header
        (doubleList l), if h.start > l then l else h.start, if h.stop < r then r else h.stop⟩
      (T.addSeg 24 l r) (R ++ [l]) := by
  have hlr := hr.size
  have hfresh := hinv.rep.layout.wf.addSeg_fresh (by decide) hlr hr.apart
  have hrep := hinv.rep.addSeg hl hlr hr.lt hr.aligned_from hr.apart hr.header
  have hnew : T.addSeg 24 l r l = some ⟨l, r, 0, 0, 24, r - l - 24, true⟩ :=
    Function.update_self ..
  have happ : ∀ c, T.addSeg 24 l r c =
      if c = l then some ⟨l, r, 0, 0, 24, r - l - 24, true⟩ else T c :=
    fun c => Function.update_apply ..
  -- The descriptor lies outside of all blocks, so it is not in the ring yet.
  have hlR : l ∉ R := by
    intro hmem
    obtain ⟨u, hu, -⟩ := hinv.rep.mem_ring l hmem
    rw [hfresh] at hu
    cases hu
  refine
    { rep := ?_
      all := fun c u hc hu => ?_
      coalesced := fun c u v hc hv huf hvf => ?_
      start := ?_
      stop := ?_ }
  · rw [hrep.layout.doubleList_eq hnew]
    exact hrep.addTail hnew rfl hlR
  · rw [happ] at hc
    split_ifs at hc with hcl
    · simp [hcl]
    · exact List.mem_append_left _ (hinv.all hc hu)
  · rw [happ] at hc hv
    split_ifs at hc hv with h₁ h₂ h₃
    · obtain rfl := Option.some.inj hc
      exact hl.ne h₂
    · obtain rfl := Option.some.inj hc
      exact hinv.rep.layout.wf.ne_zero hv rfl
    · -- The new segment is nobody's neighbour.
      have h₀ : u.right ≠ 0 := by omega
      obtain ⟨-, t, ht, -⟩ := hinv.rep.layout.wf.right hc h₀
      rw [h₃, hfresh] at ht
      cases ht
    · exact hinv.coalesced hc hv huf hvf
  · rintro b (rfl | hb)
    · dsimp only
      split_ifs <;> omega
    · have := hinv.start b hb
      dsimp only
      split_ifs <;> omega
  · rintro b (rfl | hb)
    · dsimp only
      split_ifs <;> omega
    · have := hinv.stop b hb
      dsimp only
      split_ifs <;> omega

/-- What `addHeapBlock` does to a heap with blocks already. -/
theorem addHeapBlock_spec (hinv : Inv header B h T R) {l r : ℕ} (hl : 0 < l)
    (hr : ValidRange header B l r) : Inv header (insert (l, r) B) (addHeapBlock header h l r)
      (T.addSeg 24 l r) (R ++ [l]) ∧ (T.addSeg 24 l r).used = T.used := by
  have hnext : h.mem.next header ≠ 0 := by
    obtain ⟨n, -, hn⟩ := hinv.rep.ring.exists_next (x := header) (by simp)
    have := ptr_eq_some.1 hn.1
    exact this.1 ▸ this.2
  rw [addHeapBlock_eq (if_neg hnext)]
  exact ⟨hinv.addBlock hl hr, Tiling.used_addSeg
    (hinv.rep.layout.wf.addSeg_fresh (by decide) hr.size hr.apart) r⟩

/-- What `addHeapBlock` does to an empty heap. -/
theorem addHeapBlock_empty_spec (hnext : h.mem.next header = 0) (hpos : 0 < header)
    (hlt : header + 4 < 2 ^ 32) {l r : ℕ} (hl : 0 < l) (hr : ValidRange header ∅ l r) :
    Inv header {(l, r)} (addHeapBlock header h l r) (Tiling.addSeg 24 (fun _ => none) l r) [l] ∧
      (Tiling.addSeg 24 (fun _ => none) l r).used = fun _ => none := by
  have hinit : Inv header ∅ ⟨h.mem.initRingDoubleList header, l, r⟩ (fun _ => none) [] :=
    ⟨Rep.init hpos hlt, by rintro _ _ ⟨⟩, by rintro _ _ _ ⟨⟩, by simp, by simp⟩
  rw [addHeapBlock_eq (if_pos hnext)]
  refine ⟨?_, Tiling.used_addSeg rfl r⟩
  simpa using hinit.addBlock hl hr

end Heap

end DemoOs
