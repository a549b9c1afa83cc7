import Mathlib.Data.List.Cycle

/-!
# Rings of doubly linked nodes

A *link memory* gives every node of a type `α` two links, `next` and `prev`, each possibly null. A
*ring* is a cycle of distinct nodes, consecutive ones linked both ways (`Links.IsRing`). As the
cycle has no first node, neither has the ring: a node serving as the header of a list is a node as
any other, and an insertion next to a cursor is an insertion next to a header.

The three operations of intrusive lists, which follow a link and hence fail (`none`) on a null one:

* `Links.insertAfter c x`: `x` goes right after `c` (`IsRing.insertAfter`);
* `Links.insertBefore c x`: `x` goes right before `c` (`IsRing.insertBefore`);
* `Links.erase x`: `x` leaves its ring, its links becoming null (`IsRing.erase`).

A memory may hold a family of rings, pairwise disjoint, the links of all other nodes being null
(`Links.Rings`): an operation on one of them leaves the others alone.
-/

namespace DemoOs

/-- A link memory: the links of every node, `none` being the null pointer. -/
@[ext]
structure Links (α : Type*) where
  /-- The next node. -/
  next : α → Option α
  /-- The previous node. -/
  prev : α → Option α

namespace Links

variable {α : Type*} [DecidableEq α]

/-- Writing the `next` link of a node. -/
def setNext (L : Links α) (x : α) (y : Option α) : Links α :=
  { L with next := Function.update L.next x y }

/-- Writing the `prev` link of a node. -/
def setPrev (L : Links α) (x : α) (y : Option α) : Links α :=
  { L with prev := Function.update L.prev x y }

@[simp] theorem setNext_next (L : Links α) (x : α) (y : Option α) (z : α) :
    (L.setNext x y).next z = if z = x then y else L.next z := Function.update_apply ..

@[simp] theorem setNext_prev (L : Links α) (x : α) (y : Option α) :
    (L.setNext x y).prev = L.prev := rfl

@[simp] theorem setPrev_prev (L : Links α) (x : α) (y : Option α) (z : α) :
    (L.setPrev x y).prev z = if z = x then y else L.prev z := Function.update_apply ..

@[simp] theorem setPrev_next (L : Links α) (x : α) (y : Option α) :
    (L.setPrev x y).next = L.next := rfl

/-- A node linked to itself. -/
def initRing (L : Links α) (h : α) : Links α := (L.setNext h (some h)).setPrev h (some h)

/-- Inserting `x` right after `c`. -/
def insertAfter (L : Links α) (c x : α) : Option (Links α) :=
  let L₁ := ((L.setNext x (L.next c)).setPrev x (some c)).setNext c (some x)
  (L₁.next x).map fun n => L₁.setPrev n (some x)

/-- Inserting `x` right before `c`. -/
def insertBefore (L : Links α) (c x : α) : Option (Links α) :=
  let L₁ := ((L.setPrev x (L.prev c)).setNext x (some c)).setPrev c (some x)
  (L₁.prev x).map fun p => L₁.setNext p (some x)

/-- Taking `x` out of its ring, and clearing its links. -/
def erase (L : Links α) (x : α) : Option (Links α) := do
  let p ← L.prev x
  let L₁ := L.setNext p (L.next x)
  let n ← L₁.next x
  let L₂ := L₁.setPrev n (L₁.prev x)
  some ((L₂.setPrev x none).setNext x none)

/-! ## Rings -/

/-- The nodes `a` and `b` are linked both ways. -/
def Linked (L : Links α) (a b : α) : Prop := L.next a = some b ∧ L.prev b = some a

/-- The nodes of the cycle `c` are distinct, and linked along it. -/
structure IsRing (L : Links α) (c : Cycle α) : Prop where
  nodup : c.Nodup
  linked : c.Chain L.Linked

omit [DecidableEq α] in
/-- A relation along a path, when only its last node is `c`, and only its first node is `a`. -/
theorem isChain_imp_of_mem {R S : α → α → Prop} {a c : α} {l : List α}
    (h : (a :: (l ++ [c])).IsChain R)
    (hRS : ∀ x ∈ a :: l, ∀ y ∈ l ++ [c], R x y → S x y) : (a :: (l ++ [c])).IsChain S := by
  induction l generalizing a with
  | nil =>
    rw [List.nil_append, List.isChain_pair] at h ⊢
    exact hRS a List.mem_cons_self c (List.mem_singleton_self c) h
  | cons b l ih =>
    rw [List.cons_append, List.isChain_cons_cons] at h ⊢
    exact ⟨hRS a List.mem_cons_self b List.mem_cons_self h.1,
      ih h.2 fun x hx y hy => hRS x (List.mem_cons_of_mem _ hx) y (List.mem_cons_of_mem _ hy)⟩

omit [DecidableEq α] in
/-- A node of a cycle may be taken as its first node. -/
theorem exists_coe_cons_of_mem {c : Cycle α} {x : α} (hx : x ∈ c) :
    ∃ l : List α, c = ↑(x :: l) := by
  induction c using Quotient.inductionOn with | _ l
  obtain ⟨s, t, rfl⟩ := List.append_of_mem (Cycle.mem_coe_iff.1 hx)
  exact ⟨t ++ s, Cycle.coe_eq_coe.2
    (List.isRotated_append : (s ++ x :: t).IsRotated ((x :: t) ++ s))⟩

omit [DecidableEq α] in
theorem coe_cons_append (x : α) (s t : List α) :
    ((x :: (s ++ t) : List α) : Cycle α) = ↑(t ++ x :: s) :=
  Cycle.coe_eq_coe.2 (List.isRotated_append : ((x :: s) ++ t).IsRotated (t ++ x :: s))

variable {L L' : Links α}

omit [DecidableEq α] in
theorem IsRing.congr {c : Cycle α} (h : L.IsRing c)
    (hL : ∀ x ∈ c, L'.next x = L.next x ∧ L'.prev x = L.prev x) : L'.IsRing c := by
  refine ⟨h.nodup, ?_⟩
  have hc := h.linked
  induction c using Quotient.inductionOn with | _ l
  cases l with
  | nil => trivial
  | cons a l =>
    refine List.IsChain.imp_of_mem_imp (fun x y hx hy hxy => ?_) hc
    have hmem : ∀ z ∈ a :: (l ++ [a]), z ∈ a :: l := by
      intro z hz
      simp only [List.mem_cons, List.mem_append, List.not_mem_nil, or_false] at hz ⊢
      tauto
    exact ⟨(hL x (hmem x hx)).1.trans hxy.1, (hL y (hmem y hy)).2.trans hxy.2⟩

omit [DecidableEq α] in
/-- Along a ring, the node after `x` is the next one of the cycle. -/
theorem IsRing.linked_cons_cons {x y : α} {l : List α} (h : L.IsRing ↑(x :: y :: l)) :
    L.Linked x y :=
  (List.isChain_cons_cons.1 h.linked).1

omit [DecidableEq α] in
/-- The only node of a ring is linked to itself. -/
theorem IsRing.linked_singleton {x : α} (h : L.IsRing ↑[x]) : L.Linked x x :=
  (Cycle.chain_singleton _ _).1 h.linked

omit [DecidableEq α] in
/-- The last node of the cycle is linked to the first one. -/
theorem IsRing.linked_last {x y : α} {l : List α} (h : L.IsRing ↑(x :: (l ++ [y]))) :
    L.Linked y x := by
  rw [coe_cons_append x l [y]] at h
  exact h.linked_cons_cons

omit [DecidableEq α] in
/-- The node after the first one, the first one being again at the end. -/
theorem IsRing.next_eq_head? {x : α} {l : List α} (h : L.IsRing ↑(x :: l)) :
    L.next x = (l ++ [x]).head? := by
  cases l with
  | nil => exact h.linked_singleton.1
  | cons y l => exact h.linked_cons_cons.1

omit [DecidableEq α] in
/-- The node after one in the middle. -/
theorem IsRing.next_middle {c x : α} {l₁ l₂ : List α} (h : L.IsRing ↑(c :: (l₁ ++ x :: l₂))) :
    L.next x = (l₂ ++ [c]).head? := by
  rw [coe_cons_append c l₁ (x :: l₂), List.cons_append] at h
  rw [h.next_eq_head?]
  cases l₂ <;> rfl

omit [DecidableEq α] in
/-- The links of a node of a ring lead to nodes of the ring, and back. -/
theorem IsRing.exists_next {c : Cycle α} (h : L.IsRing c) {x : α} (hx : x ∈ c) :
    ∃ y ∈ c, L.Linked x y := by
  obtain ⟨l, rfl⟩ := exists_coe_cons_of_mem hx
  cases l with
  | nil => exact ⟨x, hx, h.linked_singleton⟩
  | cons y l => exact ⟨y, by simp, h.linked_cons_cons⟩

omit [DecidableEq α] in
theorem IsRing.exists_prev {c : Cycle α} (h : L.IsRing c) {x : α} (hx : x ∈ c) :
    ∃ y ∈ c, L.Linked y x := by
  obtain ⟨l, rfl⟩ := exists_coe_cons_of_mem hx
  rcases List.eq_nil_or_concat l with rfl | ⟨l, y, rfl⟩
  · exact ⟨x, hx, h.linked_singleton⟩
  · rw [List.concat_eq_append] at h ⊢
    exact ⟨y, by simp, h.linked_last⟩

omit [DecidableEq α] in
theorem eq_of_isChain_next {a x : α} {l l' : List α}
    (h : (a :: (l ++ [x])).IsChain fun y z => L.next y = some z)
    (h' : (a :: (l' ++ [x])).IsChain fun y z => L.next y = some z) (hx : x ∉ l) (hx' : x ∉ l') :
    l = l' := by
  induction l generalizing a l' with
  | nil =>
    cases l' with
    | nil => rfl
    | cons b l' =>
      have hb := (List.isChain_cons_cons.1 h').1.symm.trans (List.isChain_cons_cons.1 h).1
      exact absurd (Option.some.inj hb ▸ List.mem_cons_self) hx'
  | cons b l ih =>
    cases l' with
    | nil =>
      have hb := (List.isChain_cons_cons.1 h).1.symm.trans (List.isChain_cons_cons.1 h').1
      exact absurd (Option.some.inj hb ▸ List.mem_cons_self) hx
    | cons b' l' =>
      obtain ⟨hb, h⟩ := List.isChain_cons_cons.1 h
      obtain ⟨hb', h'⟩ := List.isChain_cons_cons.1 h'
      obtain rfl := Option.some.inj (hb.symm.trans hb')
      rw [ih h h' (List.not_mem_of_not_mem_cons hx) (List.not_mem_of_not_mem_cons hx')]

omit [DecidableEq α] in
/-- A ring is what a walk along the `next` links from one of its nodes finds. -/
theorem IsRing.eq_of_isChain {x : α} {l l' : List α} (h : L.IsRing ↑(x :: l))
    (h' : (x :: (l' ++ [x])).IsChain fun y z => L.next y = some z) (hx : x ∉ l') : l = l' :=
  eq_of_isChain_next (((Cycle.chain_coe_cons _ _ _).1 h.linked).imp fun _ _ hyz => hyz.1) h'
    (List.nodup_cons.1 (Cycle.nodup_coe_iff.1 h.nodup)).1 hx

/-- A walk along the `next` links leads from `a` to `b`. -/
def Reaches (L : Links α) : α → α → Prop := Relation.ReflTransGen fun x y => L.next x = some y

omit [DecidableEq α] in
theorem reaches_of_isChain {a b : α} {l : List α} (h : (a :: l).IsChain L.Linked)
    (hb : b ∈ a :: l) : L.Reaches a b := by
  induction l generalizing a with
  | nil => rw [List.mem_singleton.1 hb]; exact .refl
  | cons c l ih =>
    obtain ⟨hac, hcl⟩ := List.isChain_cons_cons.1 h
    rcases List.mem_cons.1 hb with rfl | hb
    · exact .refl
    · exact .head hac.1 (ih hcl hb)

omit [DecidableEq α] in
/-- From a node of a ring, a walk meets the nodes of the ring, and no others. -/
theorem IsRing.reaches_iff {c : Cycle α} (h : L.IsRing c) {a b : α} (ha : a ∈ c) :
    L.Reaches a b ↔ b ∈ c := by
  constructor
  · intro hab
    induction hab with
    | refl => exact ha
    | tail _ hnext ih =>
      obtain ⟨y, hy, hlink⟩ := h.exists_next ih
      rw [hlink.1] at hnext
      exact Option.some.inj hnext ▸ hy
  · intro hb
    obtain ⟨l, rfl⟩ := exists_coe_cons_of_mem ha
    refine reaches_of_isChain ((Cycle.chain_coe_cons _ _ _).1 h.linked) ?_
    simp only [Cycle.mem_coe_iff, List.mem_cons, List.mem_append] at hb ⊢
    tauto

/-! ## Initialisation -/

theorem isRing_initRing (L : Links α) (h : α) : (L.initRing h).IsRing ↑[h] :=
  ⟨Cycle.nodup_coe_iff.2 (List.nodup_singleton h),
    (Cycle.chain_singleton _ _).2 ⟨by simp [initRing], by simp [initRing]⟩⟩

theorem initRing_frame (L : Links α) {h x : α} (hx : x ≠ h) :
    (L.initRing h).next x = L.next x ∧ (L.initRing h).prev x = L.prev x := by
  simp [initRing, hx]

/-! ## Insertion -/

/-- The links after inserting `x` between `c` and `n`. -/
theorem insertAfter_eq {c x n : α} (hn : L.next c = some n) (hx : x ≠ c) :
    ∃ L', L.insertAfter c x = some L' ∧
      (∀ z, L'.next z = if z = c then some x else if z = x then some n else L.next z) ∧
      (∀ z, L'.prev z = if z = n then some x else if z = x then some c else L.prev z) := by
  simp [insertAfter, hx, hn]

/-- Insertion right after a node of a ring. -/
theorem IsRing.insertAfter {c x : α} {l : List α} (h : L.IsRing ↑(c :: l)) (hx : x ∉ c :: l) :
    ∃ L', L.insertAfter c x = some L' ∧ L'.IsRing ↑(c :: x :: l) ∧
      ∀ z, z ≠ x → z ∉ c :: l → L'.next z = L.next z ∧ L'.prev z = L.prev z := by
  obtain ⟨hxc, hxl⟩ := List.ne_and_not_mem_of_not_mem_cons hx
  have hnd : (c :: x :: l).Nodup := by
    have := Cycle.nodup_coe_iff.1 h.nodup
    simp only [List.nodup_cons, List.mem_cons, not_or] at this ⊢
    exact ⟨⟨Ne.symm hxc, this.1⟩, hxl, this.2⟩
  obtain ⟨n, hn, hcn⟩ := h.exists_next (x := c) (by simp)
  obtain ⟨L', hL', hnext, hprev⟩ := insertAfter_eq hcn.1 hxc
  refine ⟨L', hL', ⟨Cycle.nodup_coe_iff.2 hnd, ?_⟩, fun z hzx hz => ?_⟩
  · rw [Cycle.chain_coe_cons]
    cases l with
    | nil =>
      obtain rfl : n = c := by simpa using hn
      simp [Linked, hnext, hprev, hxc]
    | cons y l =>
      obtain rfl : n = y := Option.some_injective _ (hcn.1.symm.trans h.linked_cons_cons.1)
      have hnx : n ≠ x := by rintro rfl; simp at hxl
      refine List.isChain_cons_cons.2 ⟨⟨by simp [hnext], ?_⟩, List.isChain_cons_cons.2
        ⟨⟨?_, by simp [hprev]⟩, ?_⟩⟩
      · simp [hprev, hnx.symm]
      · simp [hnext, hxc]
      · -- The rest of the ring keeps its links: `c` only occurs last, and `n` only first.
        have hnd' := Cycle.nodup_coe_iff.1 h.nodup
        simp only [List.nodup_cons, List.mem_cons, not_or] at hnd' hx
        refine isChain_imp_of_mem (List.isChain_cons_cons.1 h.linked).2 fun a ha b hb hab => ?_
        have hac : a ≠ c := by rintro rfl; exact absurd ha (by simp [hnd'.1])
        have hax : a ≠ x := by rintro rfl; exact absurd ha (by simp [hx])
        have hbn : b ≠ n := by rintro rfl; exact absurd hb (by simp [hnd'.2.1, Ne.symm hnd'.1.1])
        have hbx : b ≠ x := by rintro rfl; exact absurd hb (by simp [hx])
        exact ⟨by simpa [hnext, hac, hax] using hab.1, by simpa [hprev, hbn, hbx] using hab.2⟩
  · have hzc : z ≠ c := fun e => hz (e ▸ List.mem_cons_self)
    have hzn : z ≠ n := fun e => hz (e ▸ Cycle.mem_coe_iff.1 hn)
    simp [hnext, hprev, hzx, hzc, hzn]

/-- Insertion before `c` is insertion after the node before `c`. -/
theorem insertBefore_eq_insertAfter {c x p : α} (h : L.Linked p c) (hxc : x ≠ c) (hxp : x ≠ p) :
    L.insertBefore c x = L.insertAfter p x := by
  obtain ⟨L', hL', hnext, hprev⟩ := insertAfter_eq h.1 hxp
  rw [hL']
  simp only [insertBefore, setPrev_prev, setNext_prev, hxc, ↓reduceIte, h.2, Option.map_some,
    Option.some.injEq]
  ext1 <;> funext z
  · rw [hnext]; simp
  · rw [hprev]; simp

/-- The links after inserting `x` before `c`, with `p` stored as the node before `c`. -/
theorem insertBefore_eq {c x p : α} (h : L.prev c = some p) (hx : x ≠ c) :
    ∃ L', L.insertBefore c x = some L' ∧
      (∀ z, L'.next z = if z = p then some x else if z = x then some c else L.next z) ∧
      (∀ z, L'.prev z = if z = c then some x else if z = x then some p else L.prev z) := by
  simp [insertBefore, hx, h]

theorem exists_insertBefore_of_prev {c x p : α} (h : L.prev c = some p) (hx : x ≠ c) :
    ∃ L', L.insertBefore c x = some L' ∧ L'.prev c = some x := by
  obtain ⟨L', hL', -, hprev⟩ := insertBefore_eq h hx
  exact ⟨L', hL', by simp [hprev]⟩

/-- Insertion right before a node of a ring. -/
theorem IsRing.insertBefore {c x : α} {l : List α} (h : L.IsRing ↑(c :: l)) (hx : x ∉ c :: l) :
    ∃ L', L.insertBefore c x = some L' ∧ L'.IsRing ↑(c :: (l ++ [x])) ∧
      ∀ z, z ≠ x → z ∉ c :: l → L'.next z = L.next z ∧ L'.prev z = L.prev z := by
  -- Take the node before `c` as the first one: `x` goes right after it.
  rcases List.eq_nil_or_concat l with rfl | ⟨l, p, rfl⟩
  · have hxc : x ≠ c := by simpa using hx
    rw [insertBefore_eq_insertAfter h.linked_singleton hxc hxc]
    exact h.insertAfter hx
  · rw [List.concat_eq_append] at h hx ⊢
    have hpc : L.Linked p c := h.linked_last
    have hrot : ((c :: (l ++ [p]) : List α) : Cycle α) = ↑(p :: c :: l) := coe_cons_append c l [p]
    have hperm : ∀ z, z ∈ p :: c :: l ↔ z ∈ c :: (l ++ [p]) := by
      intro z; simp only [List.mem_cons, List.mem_append, List.not_mem_nil, or_false]; tauto
    have hx' : x ∉ p :: c :: l := mt (hperm x).1 hx
    rw [insertBefore_eq_insertAfter hpc (by rintro rfl; simp at hx) (by rintro rfl; simp at hx)]
    obtain ⟨L', hL', hr, hf⟩ := (hrot ▸ h).insertAfter hx'
    refine ⟨L', hL', ?_, fun z hzx hz => hf z hzx (mt (hperm z).1 hz)⟩
    rwa [List.append_assoc, coe_cons_append c l ([p] ++ [x])]

/-! ## Removal -/

/-- The links after removing `x` from between `p` and `n`. -/
theorem erase_eq {p x n : α} (hp : L.Linked p x) (hn : L.Linked x n) :
    ∃ L', L.erase x = some L' ∧
      (∀ z, L'.next z = if z = x then none else if z = p then some n else L.next z) ∧
      (∀ z, L'.prev z = if z = x then none else if z = n then some p else L.prev z) := by
  simp [erase, hp.2, hn.1]

/-- Removing a node of a ring of at least two. -/
theorem IsRing.erase {x y : α} {l : List α} (h : L.IsRing ↑(x :: y :: l)) :
    ∃ L', L.erase x = some L' ∧ L'.IsRing ↑(y :: l) ∧
      (L'.next x = none ∧ L'.prev x = none) ∧
      ∀ z, z ∉ x :: y :: l → L'.next z = L.next z ∧ L'.prev z = L.prev z := by
  obtain ⟨p, hp, hpx⟩ := h.exists_prev (x := x) (by simp)
  have hxy : L.Linked x y := h.linked_cons_cons
  have hnd := Cycle.nodup_coe_iff.1 h.nodup
  have hne : x ≠ y := by rintro rfl; simp at hnd
  have hpx' : p ≠ x := by
    rintro rfl
    exact hne (Option.some_injective _ (hpx.1.symm.trans hxy.1))
  obtain ⟨L', hL', hnext, hprev⟩ := erase_eq hpx hxy
  refine ⟨L', hL', ⟨Cycle.nodup_coe_iff.2 (List.nodup_cons.1 hnd).2, ?_⟩, by simp [hnext, hprev],
    fun z hz => ?_⟩
  · rcases List.eq_nil_or_concat l with rfl | ⟨l, q, rfl⟩
    · obtain rfl : p = y := by
        have : p = x ∨ p = y := by simpa using hp
        exact this.resolve_left hpx'
      simp [Linked, hnext, hprev, hne.symm]
    · rw [List.concat_eq_append] at h hnd hp ⊢
      obtain rfl : p = q := Option.some_injective _
        (hpx.2.symm.trans (h.linked_last (l := y :: l)).2)
      -- The path from `y` to `p` keeps its links, and `p` is now linked to `y`.
      have hpath : (y :: (l ++ [p])).IsChain L.Linked := by
        have hchain : ((x :: y :: l) ++ p :: [x]).IsChain L.Linked := by
          simpa using (Cycle.chain_coe_cons _ _ _).1 h.linked
        exact (List.isChain_cons_cons.1 (List.isChain_split.1 hchain).1).2
      simp only [List.nodup_cons, List.mem_cons, List.mem_append, List.not_mem_nil, or_false,
        not_or, List.nodup_append] at hnd
      rw [Cycle.chain_coe_cons, show y :: (l ++ [p] ++ [y]) = (y :: l) ++ p :: [y] by simp,
        List.isChain_split]
      refine ⟨isChain_imp_of_mem hpath fun a ha b hb hab => ?_, List.isChain_pair.2
        ⟨by simp [hnext, hpx'], by simp [hprev, hne.symm]⟩⟩
      have hax : a ≠ x := by rintro rfl; exact absurd ha (by simp [hnd])
      have hap : a ≠ p := by rintro rfl; exact absurd ha (by grind)
      have hbx : b ≠ x := by rintro rfl; exact absurd hb (by simp [hnd])
      have hby : b ≠ y := by rintro rfl; exact absurd hb (by grind)
      exact ⟨by simpa [hnext, hax, hap] using hab.1, by simpa [hprev, hbx, hby] using hab.2⟩
  · have hzx : z ≠ x := fun e => hz (e ▸ List.mem_cons_self)
    have hzy : z ≠ y := fun e => hz (e ▸ by simp)
    have hzp : z ≠ p := fun e => hz (e ▸ Cycle.mem_coe_iff.1 hp)
    simp [hnext, hprev, hzx, hzy, hzp]

/-! ## Families of rings -/

/-- The cycles `R` are rings, no two of them sharing a node. -/
structure RingFamily {ι : Type*} (L : Links α) (R : ι → Cycle α) : Prop where
  ring : ∀ i, L.IsRing (R i)
  disjoint : ∀ {i j x}, x ∈ R i → x ∈ R j → i = j

/-- The cycles `R` are rings, no two of them sharing a node, and a node in none of them has null
    links. -/
structure Rings {ι : Type*} (L : Links α) (R : ι → Cycle α) : Prop where
  ring : ∀ i, L.IsRing (R i)
  disjoint : ∀ {i j x}, x ∈ R i → x ∈ R j → i = j
  null : ∀ {x}, (∀ i, x ∉ R i) → L.next x = none ∧ L.prev x = none

namespace RingFamily

variable {ι : Type*} [DecidableEq ι] {R : ι → Cycle α} {i : ι}

omit [DecidableEq α] in
/-- The family after a change of its ring `i` which kept the other rings as they were. -/
theorem update_of_keep {c : Cycle α} (h : L.RingFamily R) (hc : L'.IsRing c)
    (hnew : ∀ x ∈ c, x ∈ R i ∨ ∀ j, x ∉ R j)
    (hkeep : ∀ j z, j ≠ i → z ∈ R j → L'.next z = L.next z ∧ L'.prev z = L.prev z) :
    L'.RingFamily (Function.update R i c) where
  ring j := by
    by_cases hj : j = i
    · subst hj; rwa [Function.update_self]
    · rw [Function.update_of_ne hj]
      exact (h.ring j).congr fun x hx => hkeep j x hj hx
  disjoint := by
    intro j k x hj hk
    by_cases hji : j = i <;> by_cases hki : k = i
    · exact hji.trans hki.symm
    · subst hji
      rw [Function.update_self] at hj
      rw [Function.update_of_ne hki] at hk
      exact (hnew x hj).elim (fun hx => h.disjoint hx hk) fun hno => absurd hk (hno k)
    · subst hki
      rw [Function.update_self] at hk
      rw [Function.update_of_ne hji] at hj
      exact (hnew x hk).elim (fun hx => h.disjoint hj hx) fun hno => absurd hj (hno j)
    · rw [Function.update_of_ne hji] at hj
      rw [Function.update_of_ne hki] at hk
      exact h.disjoint hj hk

omit [DecidableEq α] in
/-- The family after a change of its ring `i` which kept all other nodes as they were. -/
theorem update {c : Cycle α} (h : L.RingFamily R) (hc : L'.IsRing c)
    (hnew : ∀ x ∈ c, x ∈ R i ∨ ∀ j, x ∉ R j)
    (hframe : ∀ z, z ∉ R i → z ∉ c → L'.next z = L.next z ∧ L'.prev z = L.prev z) :
    L'.RingFamily (Function.update R i c) := by
  refine h.update_of_keep hc hnew fun j z hj hz =>
    hframe z (fun hi => hj (h.disjoint hz hi)) fun hzc => ?_
  rcases hnew z hzc with hi | hno
  · exact hj (h.disjoint hz hi)
  · exact hno j hz

/-- Insertion of a node of no ring right before a node of the ring `i`. -/
theorem insertBefore {c x : α} {l : List α} (h : L.RingFamily R) (hi : R i = ↑(c :: l))
    (hx : ∀ j, x ∉ R j) :
    ∃ L', L.insertBefore c x = some L' ∧
      L'.RingFamily (Function.update R i ↑(c :: (l ++ [x]))) := by
  obtain ⟨L', hL', hr, hf⟩ := (hi ▸ h.ring i).insertBefore (x := x) (by simpa [hi] using hx i)
  refine ⟨L', hL', h.update hr (fun z hz => ?_) fun z hz hzc => ?_⟩
  · by_cases hzx : z = x
    · exact .inr (hzx ▸ hx)
    · exact .inl (by rw [hi]; simpa [hzx] using hz)
  · rw [hi] at hz
    simp only [Cycle.mem_coe_iff, List.mem_cons, List.mem_append, not_or] at hz hzc
    exact hf z hzc.2.2.1 (by simp [hz])

/-- Removal of the node after the node `c` of the ring `i`. -/
theorem erase_second {c x : α} {l : List α} (h : L.RingFamily R) (hi : R i = ↑(c :: x :: l)) :
    ∃ L', L.erase x = some L' ∧ L'.RingFamily (Function.update R i ↑(c :: l)) := by
  have hrot : ((c :: x :: l : List α) : Cycle α) = ↑(x :: (l ++ [c])) :=
    coe_cons_append c [] (x :: l)
  have hrest : ((c :: l : List α) : Cycle α) = ↑(l ++ [c]) := coe_cons_append c [] l
  obtain ⟨y, l', hl'⟩ := List.exists_cons_of_ne_nil (l := l ++ [c]) (by simp)
  rw [hrot, hl'] at hi
  rw [hrest, hl']
  obtain ⟨L', hL', hr, -, hf⟩ := (hi ▸ h.ring i).erase
  refine ⟨L', hL', h.update hr (fun z hz => .inl ?_) fun z hz _ => hf z ?_⟩
  · rw [hi]
    simp only [Cycle.mem_coe_iff, List.mem_cons] at hz ⊢
    exact .inr hz
  · rw [hi] at hz
    exact mt Cycle.mem_coe_iff.2 hz

/-- A node of no ring becomes a ring of its own. -/
theorem initRing {x : α} (h : L.RingFamily R) (hx : ∀ j, x ∉ R j) :
    (L.initRing x).RingFamily (Function.update R i ↑([x] : List α)) := by
  refine h.update (L.isRing_initRing x) (fun y hy => .inr ?_) fun y _ hy =>
    initRing_frame L (by simpa using hy)
  obtain rfl : y = x := by simpa using hy
  exact hx

end RingFamily

namespace Rings

variable {ι : Type*} [DecidableEq ι] {R : ι → Cycle α} {i : ι}

omit [DecidableEq α] [DecidableEq ι] in
theorem family (h : L.Rings R) : L.RingFamily R := ⟨h.ring, h.disjoint⟩

/-- The family after a change of its ring `i` which kept all other nodes as they were. -/
theorem update {c : Cycle α} (h : L.Rings R) (hc : L'.IsRing c)
    (hnew : ∀ x ∈ c, x ∈ R i ∨ ∀ j, x ∉ R j)
    (hold : ∀ x ∈ R i, x ∉ c → L'.next x = none ∧ L'.prev x = none)
    (hframe : ∀ z, z ∉ R i → z ∉ c → L'.next z = L.next z ∧ L'.prev z = L.prev z) :
    L'.Rings (Function.update R i c) where
  ring := (h.family.update hc hnew hframe).ring
  disjoint := (h.family.update hc hnew hframe).disjoint
  null := by
    intro x hx
    have hxc : x ∉ c := by simpa using hx i
    by_cases hxi : x ∈ R i
    · exact hold x hxi hxc
    · rw [(hframe x hxi hxc).1, (hframe x hxi hxc).2]
      refine h.null fun j hj => ?_
      have hji : j ≠ i := by rintro rfl; exact hxi hj
      exact hx j (by rwa [Function.update_of_ne hji])

omit [DecidableEq α] [DecidableEq ι] in
/-- The links are inverse to each other. -/
theorem next_eq_some_iff (h : L.Rings R) {x y : α} : L.next x = some y ↔ L.prev y = some x := by
  constructor
  · intro hxy
    obtain ⟨j, hj⟩ : ∃ j, x ∈ R j := by
      by_contra hno
      rw [(h.null fun j hj => hno ⟨j, hj⟩).1] at hxy
      cases hxy
    obtain ⟨z, -, hz⟩ := (h.ring j).exists_next hj
    obtain rfl : z = y := Option.some.inj (hz.1.symm.trans hxy)
    exact hz.2
  · intro hxy
    obtain ⟨j, hj⟩ : ∃ j, y ∈ R j := by
      by_contra hno
      rw [(h.null fun j hj => hno ⟨j, hj⟩).2] at hxy
      cases hxy
    obtain ⟨z, -, hz⟩ := (h.ring j).exists_prev hj
    obtain rfl : z = x := Option.some.inj (hz.2.symm.trans hxy)
    exact hz.1

omit [DecidableEq α] [DecidableEq ι] in
/-- There are no rings in memory that is null. -/
theorem of_null (h : ∀ x, L.next x = none ∧ L.prev x = none) : L.Rings fun _ : ι => Cycle.nil where
  ring _ := ⟨Cycle.nodup_nil, trivial⟩
  disjoint hx := absurd hx (Cycle.notMem_nil _)
  null _ := h _

/-- A node of no ring becomes a ring of its own. -/
theorem initRing {x : α} (h : L.Rings R) (hi : R i = Cycle.nil) (hx : ∀ j, x ∉ R j) :
    (L.initRing x).Rings (Function.update R i ↑([x] : List α)) := by
  refine h.update (L.isRing_initRing x) (fun y hy => .inr ?_)
    (fun y hy => absurd (hi ▸ hy) (Cycle.notMem_nil y)) fun y _ hy =>
      initRing_frame L (by simpa using hy)
  obtain rfl : y = x := by simpa using hy
  exact hx

/-- Insertion of a node of no ring right after a node of the ring `i`. -/
theorem insertAfter {c x : α} {l : List α} (h : L.Rings R) (hi : R i = ↑(c :: l))
    (hx : ∀ j, x ∉ R j) :
    ∃ L', L.insertAfter c x = some L' ∧ L'.Rings (Function.update R i ↑(c :: x :: l)) := by
  obtain ⟨L', hL', hr, hf⟩ := (hi ▸ h.ring i).insertAfter (x := x) (by simpa [hi] using hx i)
  refine ⟨L', hL', h.update hr (fun z hz => ?_) (fun z hz hzc => ?_) fun z hz hzc => ?_⟩
  · by_cases hzx : z = x
    · exact .inr (hzx ▸ hx)
    · exact .inl (by rw [hi]; simpa [hzx] using hz)
  · rw [hi] at hz
    simp only [Cycle.mem_coe_iff, List.mem_cons] at hz hzc
    tauto
  · rw [hi] at hz
    simp only [Cycle.mem_coe_iff, List.mem_cons, not_or] at hz hzc
    exact hf z hzc.2.1 (by simp [hz])

/-- Insertion of a node of no ring right before a node of the ring `i`. -/
theorem insertBefore {c x : α} {l : List α} (h : L.Rings R) (hi : R i = ↑(c :: l))
    (hx : ∀ j, x ∉ R j) :
    ∃ L', L.insertBefore c x = some L' ∧ L'.Rings (Function.update R i ↑(c :: (l ++ [x]))) := by
  obtain ⟨L', hL', hr, hf⟩ := (hi ▸ h.ring i).insertBefore (x := x) (by simpa [hi] using hx i)
  refine ⟨L', hL', h.update hr (fun z hz => ?_) (fun z hz hzc => ?_) fun z hz hzc => ?_⟩
  · by_cases hzx : z = x
    · exact .inr (hzx ▸ hx)
    · exact .inl (by rw [hi]; simpa [hzx] using hz)
  · rw [hi] at hz
    simp only [Cycle.mem_coe_iff, List.mem_cons, List.mem_append] at hz hzc
    tauto
  · rw [hi] at hz
    simp only [Cycle.mem_coe_iff, List.mem_cons, List.mem_append, not_or] at hz hzc
    exact hf z hzc.2.2.1 (by simp [hz])

/-- Insertion of several nodes, one after the other, right before a node of the ring `i`. -/
theorem foldlM_insertBefore {c : α} {l : List α} (h : L.Rings R) (hi : R i = ↑(c :: l))
    (xs : List α) (hxs : ∀ x ∈ xs, ∀ j, x ∉ R j) (hnd : xs.Nodup) :
    ∃ L', xs.foldlM (fun L x => L.insertBefore c x) L = some L' ∧
      L'.Rings (Function.update R i ↑(c :: (l ++ xs))) := by
  -- By induction on the nodes; those not yet linked are in no ring.
  induction xs generalizing L R l with
  | nil =>
    refine ⟨L, rfl, ?_⟩
    rwa [List.append_nil, ← hi, Function.update_eq_self]
  | cons x xs ih =>
    obtain ⟨L₁, hL₁, h₁⟩ := h.insertBefore hi (hxs x List.mem_cons_self)
    obtain ⟨hx, hnd⟩ := List.nodup_cons.1 hnd
    have hxs' : ∀ y ∈ xs, ∀ j, y ∉ Function.update R i ↑(c :: (l ++ [x])) j := by
      intro y hy j
      have hyR := hxs y (List.mem_cons_of_mem _ hy)
      by_cases hj : j = i
      · subst hj
        have hyj := hyR j
        rw [Function.update_self]
        rw [hi] at hyj
        simp only [Cycle.mem_coe_iff, List.mem_cons, List.mem_append, List.not_mem_nil,
          or_false, not_or] at hyj ⊢
        exact ⟨hyj.1, hyj.2, by rintro rfl; exact hx hy⟩
      · rw [Function.update_of_ne hj]
        exact hyR j
    obtain ⟨L', hL', h'⟩ := ih h₁ (Function.update_self ..) hxs' hnd
    refine ⟨L', ?_, ?_⟩
    · rw [List.foldlM_cons, hL₁]
      exact hL'
    · rwa [Function.update_idem, List.append_assoc] at h'

/-- Removal of a node of the ring `i`, which has another one. -/
theorem erase {x y : α} {l : List α} (h : L.Rings R) (hi : R i = ↑(x :: y :: l)) :
    ∃ L', L.erase x = some L' ∧ L'.Rings (Function.update R i ↑(y :: l)) := by
  obtain ⟨L', hL', hr, hnull, hf⟩ := (hi ▸ h.ring i).erase
  refine ⟨L', hL', h.update hr (fun z hz => .inl ?_) (fun z hz hzc => ?_) fun z hz hzc => ?_⟩
  · rw [hi]
    simp only [Cycle.mem_coe_iff, List.mem_cons] at hz ⊢
    exact .inr hz
  · rw [hi] at hz
    simp only [Cycle.mem_coe_iff, List.mem_cons] at hz hzc
    obtain rfl : z = x := hz.resolve_right hzc
    exact hnull
  · exact hf z (by rw [hi] at hz; exact mt Cycle.mem_coe_iff.2 hz)

/-- Removal of a node of the ring `i` other than the one `c` it is read from. -/
theorem erase_middle {c x : α} {l₁ l₂ : List α} (h : L.Rings R)
    (hi : R i = ↑(c :: (l₁ ++ x :: l₂))) :
    ∃ L', L.erase x = some L' ∧ L'.Rings (Function.update R i ↑(c :: (l₁ ++ l₂))) := by
  rw [coe_cons_append c l₁ (x :: l₂), List.cons_append] at hi
  obtain ⟨y, l, hl⟩ := List.exists_cons_of_ne_nil (l := l₂ ++ c :: l₁) (by simp)
  rw [hl] at hi
  obtain ⟨L', hL', hr⟩ := h.erase hi
  rw [← hl, ← coe_cons_append c l₁ l₂] at hr
  exact ⟨L', hL', hr⟩

/-! The same by the nodes of the rings, when their order does not matter. -/

theorem exists_insertAfter {c x : α} (h : L.Rings R) (hc : c ∈ R i) (hx : ∀ j, x ∉ R j) :
    ∃ L' R', L.insertAfter c x = some L' ∧ L'.Rings R' ∧ (∀ j, j ≠ i → R' j = R j) ∧
      ∀ j y, y ∈ R' j ↔ y ∈ R j ∨ j = i ∧ y = x := by
  obtain ⟨l, hl⟩ := exists_coe_cons_of_mem hc
  obtain ⟨L', hL', hr⟩ := h.insertAfter hl hx
  refine ⟨L', _, hL', hr, fun j hj => Function.update_of_ne hj .., fun j y => ?_⟩
  by_cases hj : j = i
  · subst hj
    rw [Function.update_self, hl]
    simp only [Cycle.mem_coe_iff, List.mem_cons]
    tauto
  · simp [hj]

theorem exists_insertBefore {c x : α} (h : L.Rings R) (hc : c ∈ R i) (hx : ∀ j, x ∉ R j) :
    ∃ L' R', L.insertBefore c x = some L' ∧ L'.Rings R' ∧ (∀ j, j ≠ i → R' j = R j) ∧
      ∀ j y, y ∈ R' j ↔ y ∈ R j ∨ j = i ∧ y = x := by
  obtain ⟨l, hl⟩ := exists_coe_cons_of_mem hc
  obtain ⟨L', hL', hr⟩ := h.insertBefore hl hx
  refine ⟨L', _, hL', hr, fun j hj => Function.update_of_ne hj .., fun j y => ?_⟩
  by_cases hj : j = i
  · subst hj
    rw [Function.update_self, hl]
    simp only [Cycle.mem_coe_iff, List.mem_cons, List.mem_append, List.not_mem_nil]
    tauto
  · simp [hj]

theorem exists_erase {x y : α} (h : L.Rings R) (hx : x ∈ R i) (hy : y ∈ R i) (hxy : y ≠ x) :
    ∃ L' R' n, L.erase x = some L' ∧ L'.Rings R' ∧ (L.next x = some n ∧ n ∈ R' i) ∧
      ∀ j z, z ∈ R' j ↔ z ∈ R j ∧ z ≠ x := by
  obtain ⟨l, hl⟩ := exists_coe_cons_of_mem hx
  cases l with
  | nil =>
    rw [hl] at hy
    exact absurd (by simpa using hy) hxy
  | cons n l =>
    obtain ⟨L', hL', hr⟩ := h.erase hl
    have hring : L.IsRing ↑(x :: n :: l) := hl ▸ h.ring i
    obtain ⟨hxl, -⟩ := List.nodup_cons.1 (Cycle.nodup_coe_iff.1 hring.nodup)
    refine ⟨L', _, n, hL', hr, ⟨hring.linked_cons_cons.1, by simp⟩, fun j z => ?_⟩
    by_cases hj : j = i
    · subst hj
      rw [Function.update_self, hl, Cycle.mem_coe_iff, Cycle.mem_coe_iff, List.mem_cons (a := z)
        (b := x)]
      constructor
      · intro hz
        exact ⟨.inr hz, by rintro rfl; exact hxl hz⟩
      · rintro ⟨hz, hzx⟩
        exact hz.resolve_left hzx
    · rw [Function.update_of_ne hj]
      refine ⟨fun hz => ⟨hz, ?_⟩, And.left⟩
      rintro rfl
      exact hj (h.disjoint hz hx)

end Rings

end Links

end DemoOs
