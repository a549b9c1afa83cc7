import DemoOs.Lib.Ring
import DemoOs.Types

/-!
# Ring lists in memory

The memory of the kernel, a word at every word-aligned address, and the ring lists of `list.h` in
it: a `DoubleList` node at `p` has its `next` pointer at `p` and its `prev` pointer at `p + 4`. The
list operations neither check their arguments nor fail: a null pointer is followed to address `0`.

`linksOf` reads a memory as a link memory, null pointers being `none`. On nodes whose links do not
overlap (`Nodes`) the list operations are those of `Links`: `addNodeToRingDoubleListHeader_spec`,
`addNodeToRingDoubleListTail_spec` and `delNodeFromRingDoubleList_spec` say what they make of a
ring, and that no other cell changes.
-/

namespace DemoOs

/-- The word at every address. -/
abbrev Mem := ℕ → ℕ

namespace Mem

open Links

/-- Storing a word. -/
def write (m : Mem) (a v : ℕ) : Mem := Function.update m a v

@[simp] theorem write_apply (m : Mem) (a v x : ℕ) :
    m.write a v x = if x = a then v else m x := Function.update_apply ..

/-! ## The operations -/

/-- `p->next`. -/
def next (m : Mem) (p : ℕ) : ℕ := m p

/-- `p->prev`. -/
def prev (m : Mem) (p : ℕ) : ℕ := m (word (p + 4))

def setNext (m : Mem) (p v : ℕ) : Mem := m.write p v

def setPrev (m : Mem) (p v : ℕ) : Mem := m.write (word (p + 4)) v

def initRingDoubleList (m : Mem) (header : ℕ) : Mem :=
  (m.setNext header header).setPrev header header

def addNodeToRingDoubleListHeader (m : Mem) (header newNode : ℕ) : Mem :=
  let m := m.setNext newNode (m.next header)
  let m := m.setPrev newNode header
  let m := m.setNext header newNode
  m.setPrev (m.next newNode) newNode

def addNodeToRingDoubleListTail (m : Mem) (header newNode : ℕ) : Mem :=
  let m := m.setPrev newNode (m.prev header)
  let m := m.setNext newNode header
  let m := m.setPrev header newNode
  m.setNext (m.prev newNode) newNode

def delNodeFromRingDoubleList (m : Mem) (deletingNode : ℕ) : Mem :=
  let m := m.setNext (m.prev deletingNode) (m.next deletingNode)
  let m := m.setPrev (m.next deletingNode) (m.prev deletingNode)
  (m.setPrev deletingNode 0).setNext deletingNode 0

/-! ## Memories as link memories -/

/-- A pointer, `0` being null. -/
def ptr (v : ℕ) : Option ℕ := if v = 0 then none else some v

/-- The links of all nodes. -/
def linksOf (m : Mem) : Links ℕ := ⟨fun p => ptr (m.next p), fun p => ptr (m.prev p)⟩

theorem ptr_eq_none {v : ℕ} : ptr v = none ↔ v = 0 := by
  simp [ptr]

theorem ptr_eq_some {v p : ℕ} : ptr v = some p ↔ v = p ∧ p ≠ 0 := by
  unfold ptr
  split_ifs with h
  · simp only [false_iff, not_and, not_not]
    rintro rfl
    exact h
  · simp only [Option.some.injEq]
    constructor
    · rintro rfl
      exact ⟨rfl, h⟩
    · exact And.left

theorem ptr_pos {p : ℕ} (h : 0 < p) : ptr p = some p := ptr_eq_some.2 ⟨rfl, h.ne'⟩

/-- Nodes which are not null, lie in the address space and do not overlap. -/
def Nodes (N : Set ℕ) : Prop := ∀ p ∈ N, 0 < p ∧ p + 4 < 2 ^ 32 ∧ p + 4 ∉ N

/-- The memory `m` has the links of `L` at the nodes `N`. -/
def Agree (N : Set ℕ) (m : Mem) (L : Links ℕ) : Prop :=
  ∀ p ∈ N, m.linksOf.next p = L.next p ∧ m.linksOf.prev p = L.prev p

variable {N : Set ℕ} {m : Mem} {L : Links ℕ} {p v : ℕ}

theorem Nodes.prev_addr (hN : Nodes N) (hp : p ∈ N) : word (p + 4) = p + 4 :=
  word_eq (hN p hp).2.1

theorem Agree.setNext (h : Agree N m L) (hN : Nodes N) (hp : p ∈ N) (v : ℕ) :
    Agree N (m.setNext p v) (L.setNext p (ptr v)) := by
  intro q hq
  have hqp : q + 4 ≠ p := fun e => (hN q hq).2.2 (e ▸ hp)
  refine ⟨?_, ?_⟩
  · have := (h q hq).1
    simp only [linksOf, next, Mem.setNext, write_apply, Links.setNext_next] at this ⊢
    split_ifs with hqp'
    · rfl
    · exact this
  · have := (h q hq).2
    simp only [linksOf, prev, Mem.setNext, write_apply, Links.setNext_prev,
      hN.prev_addr hq] at this ⊢
    rwa [if_neg hqp]

theorem Agree.setPrev (h : Agree N m L) (hN : Nodes N) (hp : p ∈ N) (v : ℕ) :
    Agree N (m.setPrev p v) (L.setPrev p (ptr v)) := by
  intro q hq
  have hqp : q ≠ p + 4 := by rintro rfl; exact (hN p hp).2.2 hq
  refine ⟨?_, ?_⟩
  · have := (h q hq).1
    simp only [linksOf, next, Mem.setPrev, write_apply, Links.setPrev_next,
      hN.prev_addr hp] at this ⊢
    rwa [if_neg hqp]
  · have := (h q hq).2
    simp only [linksOf, prev, Mem.setPrev, write_apply, Links.setPrev_prev,
      hN.prev_addr hp, hN.prev_addr hq, Nat.add_right_cancel_iff] at this ⊢
    split_ifs with hqp'
    · rfl
    · exact this

theorem Agree.next_eq (h : Agree N m L) (hp : p ∈ N) : L.next p = ptr (m.next p) := (h p hp).1.symm

theorem Agree.prev_eq (h : Agree N m L) (hp : p ∈ N) : L.prev p = ptr (m.prev p) := (h p hp).2.symm

/-- The cells of the nodes `N`. -/
def Cell (N : Set ℕ) (y : ℕ) : Prop := ∃ p ∈ N, y = p ∨ y = p + 4

theorem setNext_frame (hp : p ∈ N) {y : ℕ} (hy : ¬Cell N y) : m.setNext p v y = m y := by
  rw [setNext, write_apply, if_neg fun e => hy ⟨p, hp, .inl e⟩]

theorem setPrev_frame (hN : Nodes N) (hp : p ∈ N) {y : ℕ} (hy : ¬Cell N y) :
    m.setPrev p v y = m y := by
  rw [setPrev, write_apply, hN.prev_addr hp, if_neg fun e => hy ⟨p, hp, .inr e⟩]

/-! ## What the operations make of a ring -/

/-- A ring of `m` at nodes where another memory has the same links. -/
theorem Agree.isRing {c : Cycle ℕ} (h : Agree N m L) (hc : ∀ p ∈ c, p ∈ N) (hr : L.IsRing c) :
    m.linksOf.IsRing c :=
  hr.congr fun p hp => h p (hc p hp)

theorem initRingDoubleList_spec {c : ℕ} (hN : Nodes {c}) :
    (m.initRingDoubleList c).linksOf.IsRing ↑[c] ∧
      ∀ y, ¬Cell {c} y → m.initRingDoubleList c y = m y := by
  have hc : c ∈ ({c} : Set ℕ) := rfl
  have hagree : Agree {c} (m.initRingDoubleList c) (m.linksOf.initRing c) := by
    have h := ((show Agree {c} m m.linksOf from fun _ _ => ⟨rfl, rfl⟩).setNext hN hc c).setPrev
      hN hc c
    rwa [ptr_pos (hN c hc).1] at h
  refine ⟨hagree.isRing (by simp) (m.linksOf.isRing_initRing c), fun y hy => ?_⟩
  rw [initRingDoubleList, setPrev_frame hN hc hy, setNext_frame hc hy]

section Insert

variable {c x : ℕ} {l : List ℕ} (hN : Nodes N) (hc : ∀ p ∈ x :: c :: l, p ∈ N)
  (h : m.linksOf.IsRing ↑(c :: l)) (hx : x ∉ c :: l)

include hN hc h hx

theorem addNodeToRingDoubleListHeader_spec :
    (m.addNodeToRingDoubleListHeader c x).linksOf.IsRing ↑(c :: x :: l) ∧
      ∀ y, ¬Cell N y → m.addNodeToRingDoubleListHeader c x y = m y := by
  have hxN : x ∈ N := hc x (by simp)
  have hcN : c ∈ N := hc c (by simp)
  obtain ⟨n, hn, hcn⟩ := h.exists_next (x := c) (by simp)
  have hnN : n ∈ N := hc n (List.mem_cons_of_mem _ (Cycle.mem_coe_iff.1 hn))
  obtain ⟨L', hL', hring, -⟩ := h.insertAfter hx
  -- The memory before the last store, and the links it holds.
  set m₁ := ((m.setNext x (m.next c)).setPrev x c).setNext c x with hm₁
  have h₁ : Agree N m₁ (((m.linksOf.setNext x (m.linksOf.next c)).setPrev x (some c)).setNext c
      (some x)) := by
    have := (((show Agree N m m.linksOf from fun _ _ => ⟨rfl, rfl⟩).setNext hN hxN
      (m.next c)).setPrev hN hxN c).setNext hN hcN x
    rwa [ptr_pos (hN c hcN).1, ptr_pos (hN x hxN).1] at this
  have hxc : x ≠ c := by rintro rfl; simp at hx
  have hnext : m₁.next x = n := by
    have := h₁.next_eq hxN
    simp only [Links.setNext_next, Links.setPrev_next, hxc, ↓reduceIte, hcn.1] at this
    exact (ptr_eq_some.1 this.symm).1
  have h₂ : Agree N (m₁.setPrev (m₁.next x) x) L' := by
    have := h₁.setPrev hN hnN x
    rw [ptr_pos (hN x hxN).1] at this
    rw [hnext]
    simp only [Links.insertAfter, Links.setNext_next, Links.setPrev_next, hxc, ↓reduceIte,
      hcn.1, Option.map_some, Option.some.injEq] at hL' this
    rwa [← hL']
  refine ⟨h₂.isRing (fun p hp => hc p ?_) hring, fun y hy => ?_⟩
  · simp only [Cycle.mem_coe_iff, List.mem_cons] at hp ⊢
    tauto
  · change m₁.setPrev (m₁.next x) x y = m y
    rw [hnext, setPrev_frame hN hnN hy, hm₁, setNext_frame hcN hy, setPrev_frame hN hxN hy,
      setNext_frame hxN hy]

theorem addNodeToRingDoubleListTail_spec :
    (m.addNodeToRingDoubleListTail c x).linksOf.IsRing ↑(c :: (l ++ [x])) ∧
      ∀ y, ¬Cell N y → m.addNodeToRingDoubleListTail c x y = m y := by
  have hxN : x ∈ N := hc x (by simp)
  have hcN : c ∈ N := hc c (by simp)
  obtain ⟨q, hq, hqc⟩ := h.exists_prev (x := c) (by simp)
  have hqN : q ∈ N := hc q (List.mem_cons_of_mem _ (Cycle.mem_coe_iff.1 hq))
  obtain ⟨L', hL', hring, -⟩ := h.insertBefore hx
  set m₁ := ((m.setPrev x (m.prev c)).setNext x c).setPrev c x with hm₁
  -- The stores are followed one by one; `m₁` is the memory before the last of them.
  have h₁ : Agree N m₁ (((m.linksOf.setPrev x (m.linksOf.prev c)).setNext x (some c)).setPrev c
      (some x)) := by
    have := (((show Agree N m m.linksOf from fun _ _ => ⟨rfl, rfl⟩).setPrev hN hxN
      (m.prev c)).setNext hN hxN c).setPrev hN hcN x
    rwa [ptr_pos (hN c hcN).1, ptr_pos (hN x hxN).1] at this
  have hxc : x ≠ c := by rintro rfl; simp at hx
  have hprev : m₁.prev x = q := by
    have := h₁.prev_eq hxN
    simp only [Links.setPrev_prev, Links.setNext_prev, hxc, ↓reduceIte, hqc.2] at this
    exact (ptr_eq_some.1 this.symm).1
  have h₂ : Agree N (m₁.setNext (m₁.prev x) x) L' := by
    have := h₁.setNext hN hqN x
    rw [ptr_pos (hN x hxN).1] at this
    rw [hprev]
    simp only [Links.insertBefore, Links.setPrev_prev, Links.setNext_prev, hxc, ↓reduceIte,
      hqc.2, Option.map_some, Option.some.injEq] at hL' this
    rwa [← hL']
  refine ⟨h₂.isRing (fun p hp => hc p ?_) hring, fun y hy => ?_⟩
  · simp only [Cycle.mem_coe_iff, List.mem_cons, List.mem_append] at hp ⊢
    tauto
  · change m₁.setNext (m₁.prev x) x y = m y
    rw [hprev, setNext_frame hqN hy, hm₁, setPrev_frame hN hcN hy, setNext_frame hxN hy,
      setPrev_frame hN hxN hy]

end Insert

/-- Deletion of a node other than the one the ring is seen from. -/
theorem delNodeFromRingDoubleList_spec {c x : ℕ} {s t : List ℕ} (hN : Nodes N)
    (hc : ∀ p ∈ c :: (s ++ x :: t), p ∈ N) (h : m.linksOf.IsRing ↑(c :: (s ++ x :: t))) :
    (m.delNodeFromRingDoubleList x).linksOf.IsRing ↑(c :: (s ++ t)) ∧
      ((m.delNodeFromRingDoubleList x).next x = 0 ∧ (m.delNodeFromRingDoubleList x).prev x = 0) ∧
      ∀ y, ¬Cell N y → m.delNodeFromRingDoubleList x y = m y := by
  have hxN : x ∈ N := hc x (by simp)
  obtain ⟨q, hq, hqx⟩ := h.exists_prev (x := x) (by simp)
  obtain ⟨n, hn, hxn⟩ := h.exists_next (x := x) (by simp)
  have hqN : q ∈ N := hc q (Cycle.mem_coe_iff.1 hq)
  have hnN : n ∈ N := hc n (Cycle.mem_coe_iff.1 hn)
  -- Seen from `x`, the ring is `x` followed by the remaining nodes.
  rw [coe_cons_append c s (x :: t), List.cons_append] at h
  obtain ⟨y, l, hyl⟩ : ∃ y l, t ++ c :: s = y :: l := by cases t <;> simp
  rw [hyl] at h
  obtain ⟨L', hL', hring, hnull, -⟩ := h.erase
  have hqx' : q ≠ x := by
    rintro rfl
    have hnd := Cycle.nodup_coe_iff.1 h.nodup
    have : q = y := Option.some_injective _ (hqx.1.symm.trans h.linked_cons_cons.1)
    simp [this] at hnd
  have hprev : m.prev x = q := (ptr_eq_some.1 hqx.2).1
  have hnext : m.next x = n := (ptr_eq_some.1 hxn.1).1
  set m₁ := m.setNext q n with hm₁
  have h₁ : Agree N m₁ (m.linksOf.setNext q (some n)) := by
    have := (show Agree N m m.linksOf from fun _ _ => ⟨rfl, rfl⟩).setNext hN hqN n
    rwa [ptr_pos (hN n hnN).1] at this
  have hnext₁ : m₁.next x = n := by
    have := h₁.next_eq hxN
    simp only [Links.setNext_next, hqx'.symm, ↓reduceIte, hxn.1] at this
    exact (ptr_eq_some.1 this.symm).1
  have hprev₁ : m₁.prev x = q := by
    have := h₁.prev_eq hxN
    rw [Links.setNext_prev, hqx.2] at this
    exact (ptr_eq_some.1 this.symm).1
  have hm : m.delNodeFromRingDoubleList x =
      ((m₁.setPrev n q).setPrev x 0).setNext x 0 := by
    simp only [delNodeFromRingDoubleList, hprev, hnext, ← hm₁, hnext₁, hprev₁]
  have h₂ : Agree N (m.delNodeFromRingDoubleList x) L' := by
    have := ((h₁.setPrev hN hnN q).setPrev hN hxN 0).setNext hN hxN 0
    rw [ptr_pos (hN q hqN).1, ptr_eq_none.2 rfl] at this
    rw [hm]
    simp only [Links.erase, hqx.2, hxn.1, Links.setNext_next, Links.setNext_prev, hqx'.symm,
      ↓reduceIte, Option.bind_eq_bind, Option.bind_some, Option.some.injEq] at hL'
    rwa [← hL']
  refine ⟨?_, ?_, fun y hy => ?_⟩
  · rw [coe_cons_append c s t, hyl]
    refine h₂.isRing (fun p hp => hc p ?_) hring
    rw [← hyl] at hp
    simp only [Cycle.mem_coe_iff, List.mem_cons, List.mem_append] at hp ⊢
    tauto
  · exact ⟨ptr_eq_none.1 ((h₂.next_eq hxN).symm.trans hnull.1),
      ptr_eq_none.1 ((h₂.prev_eq hxN).symm.trans hnull.2)⟩
  · rw [hm, setNext_frame hxN hy, setPrev_frame hN hxN hy, setPrev_frame hN hnN hy, hm₁,
      setNext_frame hqN hy]

end Mem

end DemoOs
