import DemoOs.Lib.Loop
import DemoOs.Mm.DoubleList

/-!
# Any number of ring lists

Disjoint rings of `DoubleList` nodes in one memory (`RingsAt`), and what the operations of `list.h`
make of them: a node is inserted into one ring, or deleted from it, and all others are left as they
are.

`RingList_Foreach_Safe` has read the link of the node before the body is run. So the body may delete
the node and insert it into another ring; what comes next in the ring is not changed by that
(`foreachSafe_spec`).
-/

namespace DemoOs.Mem

open Links

/-- The state of `RingList_Foreach_Safe`, with the nodes for which the body has been run. -/
structure Walk where
  mem : Mem
  visited : List ℕ
  p : ℕ
  n : ℕ

/-- `RingList_Foreach_Safe(p, n, header)`. What the body does may depend on the nodes visited
    before. -/
def foreachSafe (fuel : ℕ) (body : List ℕ → Mem → ℕ → Mem) (m : Mem) (header : ℕ) : Option Walk :=
  loop (fun w => w.p ≠ header)
    (fun w =>
      let m := body w.visited w.mem w.p
      ⟨m, w.visited ++ [w.p], w.n, m.next w.n⟩)
    fuel ⟨m, [], m.next header, m.next (m.next header)⟩

/-- A node is linked into a ring, next to one that is in it. -/
def addNode (tail : Bool) (m : Mem) (header newNode : ℕ) : Mem :=
  if tail then m.addNodeToRingDoubleListTail header newNode
    else m.addNodeToRingDoubleListHeader header newNode

variable {ι : Type*} {N N' : Set ℕ} {m m' : Mem} {R : ι → Cycle ℕ} {i j : ι} {c p q x h : ℕ}
    {l : List ℕ}

/-- The rings `R`, which are disjoint, are in the memory, at nodes of `N`. -/
structure RingsAt (N : Set ℕ) (m : Mem) (R : ι → Cycle ℕ) : Prop where
  nodes : Nodes N
  family : m.linksOf.RingFamily R
  mem : ∀ {j p}, p ∈ R j → p ∈ N

/-- No cell has changed but those of `x` and of the nodes of a ring. -/
def KeepsAllBut (m m' : Mem) (c : Cycle ℕ) (x : ℕ) : Prop :=
  ∀ y, ¬Cell {p | p ∈ c ∨ p = x} y → m' y = m y

theorem Nodes.mono (hN : Nodes N) (hsub : N' ⊆ N) : Nodes N' := fun p hp =>
  ⟨(hN p (hsub hp)).1, (hN p (hsub hp)).2.1, fun h => (hN p (hsub hp)).2.2 (hsub h)⟩

/-- The cells of a node are not those of others. -/
theorem Nodes.not_cell (hN : Nodes N) (hsub : N' ⊆ N) (hp : p ∈ N) (hno : p ∉ N') :
    ¬Cell N' p ∧ ¬Cell N' (p + 4) := by
  refine ⟨fun ⟨q, hq, hcell⟩ => ?_, fun ⟨q, hq, hcell⟩ => ?_⟩
  · rcases hcell with rfl | rfl
    · exact hno hq
    · exact (hN q (hsub hq)).2.2 hp
  · rcases hcell with rfl | hcell
    · exact (hN p hp).2.2 (hsub hq)
    · exact hno (Nat.add_right_cancel hcell ▸ hq)

namespace RingsAt

/-- The links of the nodes of a ring are inverse to each other. -/
theorem next_prev (hR : RingsAt N m R) (hp : p ∈ R j) : m.prev (m.next p) = p ∧
    m.next (m.prev p) = p := by
  obtain ⟨n, -, hn⟩ := (hR.family.ring j).exists_next hp
  obtain ⟨q, -, hq⟩ := (hR.family.ring j).exists_prev hp
  rw [(ptr_eq_some.1 hn.1).1, (ptr_eq_some.1 hq.2).1]
  exact ⟨(ptr_eq_some.1 hn.2).1, (ptr_eq_some.1 hq.1).1⟩

variable [DecidableEq ι]

/-- One ring has been changed, by changes to its nodes and a node of no ring. -/
theorem update (hR : RingsAt N m R) {c : Cycle ℕ} (hc : m'.linksOf.IsRing c)
    (hmem : ∀ p ∈ c, p ∈ R i ∨ p = x)
    (hx : x ∈ R i ∨ x ∈ N ∧ ∀ j, x ∉ R j) (hkeep : KeepsAllBut m m' (R i) x) :
    RingsAt N m' (Function.update R i c) where
  nodes := hR.nodes
  family := by
    -- Only nodes of the ring and the one that joins it are written.
    have hsub : {p | p ∈ R i ∨ p = x} ⊆ N := by
      rintro p (hp | rfl)
      · exact hR.mem hp
      · exact hx.elim hR.mem And.left
    refine hR.family.update_of_keep hc (fun p hp => ?_) fun j z hj hz => ?_
    · rcases hmem p hp with hp | rfl
      · exact .inl hp
      · exact hx.imp_right And.right
    · have hno : z ∉ {p | p ∈ R i ∨ p = x} := by
        rintro (hz' | rfl)
        · exact hj (hR.family.disjoint hz hz')
        · rcases hx with hx | hx
          · exact hj (hR.family.disjoint hz hx)
          · exact hx.2 j hz
      obtain ⟨hnext, hprev⟩ := hR.nodes.not_cell hsub (hR.mem hz) hno
      simp only [linksOf, next, prev, hR.nodes.prev_addr (hR.mem hz), hkeep _ hnext,
        hkeep _ hprev, and_self]
  mem {j p} hp := by
    by_cases hj : j = i
    · subst hj
      rw [Function.update_self] at hp
      rcases hmem p hp with hp | rfl
      · exact hR.mem hp
      · exact hx.elim hR.mem And.left
    · rw [Function.update_of_ne hj] at hp
      exact hR.mem hp

omit [DecidableEq ι] in
/-- The nodes of a ring and another one, as nodes. -/
theorem nodes_insert (hR : RingsAt N m R) (hx : x ∈ N) : Nodes {p | p ∈ R i ∨ p = x} :=
  hR.nodes.mono fun _ hp => hp.elim hR.mem fun h => h ▸ hx

/-- The node is inserted right after the header. -/
theorem header (hR : RingsAt N m R) (hi : R i = ↑(h :: l)) (hx : x ∈ N) (hno : ∀ j, x ∉ R j) :
    RingsAt N (m.addNodeToRingDoubleListHeader h x) (Function.update R i ↑(h :: x :: l)) ∧
      KeepsAllBut m (m.addNodeToRingDoubleListHeader h x) (R i) x := by
  have hnot : x ∉ h :: l := fun hmem => hno i (hi ▸ hmem)
  obtain ⟨hring, hkeep⟩ := addNodeToRingDoubleListHeader_spec (hR.nodes_insert (i := i) hx)
    (fun p hp => by simpa [hi, or_comm, or_left_comm] using hp) (hi ▸ hR.family.ring i) hnot
  refine ⟨hR.update hring (fun p hp => ?_) (.inr ⟨hx, hno⟩) hkeep, hkeep⟩
  simpa [hi, or_comm, or_left_comm] using hp

/-- The node is inserted right before the header. -/
theorem tail (hR : RingsAt N m R) (hi : R i = ↑(h :: l)) (hx : x ∈ N) (hno : ∀ j, x ∉ R j) :
    RingsAt N (m.addNodeToRingDoubleListTail h x) (Function.update R i ↑(h :: (l ++ [x]))) ∧
      KeepsAllBut m (m.addNodeToRingDoubleListTail h x) (R i) x := by
  have hnot : x ∉ h :: l := fun hmem => hno i (hi ▸ hmem)
  obtain ⟨hring, hkeep⟩ := addNodeToRingDoubleListTail_spec (hR.nodes_insert (i := i) hx)
    (fun p hp => by simpa [hi, or_comm, or_left_comm] using hp) (hi ▸ hR.family.ring i) hnot
  refine ⟨hR.update hring (fun p hp => ?_) (.inr ⟨hx, hno⟩) hkeep, hkeep⟩
  simpa [hi, or_assoc] using hp

omit [DecidableEq ι] in
/-- The only node of a ring, which is deleted, is linked to itself. -/
theorem delete_singleton (hR : RingsAt N m R) (hi : R i = ↑[x]) :
    ((m.delNodeFromRingDoubleList x).next x = 0 ∧ (m.delNodeFromRingDoubleList x).prev x = 0) ∧
      KeepsAllBut m (m.delNodeFromRingDoubleList x) (R i) x := by
  have hxi : x ∈ R i := by simp [hi]
  have hlink := (hi ▸ hR.family.ring i : m.linksOf.IsRing ↑[x]).linked_singleton
  have hnext : m.next x = x := (ptr_eq_some.1 hlink.1).1
  have hprev : m.prev x = x := (ptr_eq_some.1 hlink.2).1
  have hne : x ≠ word (x + 4) := by
    rw [hR.nodes.prev_addr (hR.mem hxi)]
    omega
  refine ⟨?_, fun y hy => ?_⟩
  · simp [delNodeFromRingDoubleList, next, prev, setNext, setPrev, hne.symm]
  · have hy₁ : y ≠ x := fun h => hy ⟨x, .inr rfl, .inl h⟩
    have hy₂ : y ≠ word (x + 4) :=
      fun h => hy ⟨x, .inr rfl, .inr (h.trans (hR.nodes.prev_addr (hR.mem hxi)))⟩
    have hnext₁ : (m.setNext x x).next x = x := by simp [next, setNext]
    have hprev₁ : (m.setNext x x).prev x = x := by simpa [prev, setNext, hne.symm] using hprev
    simp only [delNodeFromRingDoubleList, hnext, hprev, hnext₁, hprev₁]
    simp [setNext, setPrev, hy₁, hy₂]

/-- The node is deleted, and its links are zero. -/
theorem delete (hR : RingsAt N m R) (hi : R i = ↑(x :: l)) :
    RingsAt N (m.delNodeFromRingDoubleList x) (Function.update R i ↑l) ∧
      ((m.delNodeFromRingDoubleList x).next x = 0 ∧ (m.delNodeFromRingDoubleList x).prev x = 0) ∧
      KeepsAllBut m (m.delNodeFromRingDoubleList x) (R i) x := by
  have hxi : x ∈ R i := by simp [hi]
  cases l with
  | nil =>
    obtain ⟨hnull, hkeep⟩ := hR.delete_singleton hi
    refine ⟨hR.update ⟨Cycle.nodup_nil, trivial⟩ (fun p hp => absurd hp (Cycle.notMem_nil p))
      (.inl hxi) hkeep, hnull, hkeep⟩
  | cons c l =>
    -- Seen from the node behind it, it is the last one.
    have hrot : ((x :: c :: l : List ℕ) : Cycle ℕ) = ↑(c :: (l ++ [x])) :=
      coe_cons_append x [] (c :: l)
    obtain ⟨hring, hnull, hkeep⟩ :=
      delNodeFromRingDoubleList_spec (c := c) (x := x) (s := l) (t := [])
      (hR.nodes_insert (i := i) (hR.mem hxi)) (fun p hp => .inl (by rw [hi, hrot]; exact hp)) (by
        have hring := hR.family.ring i
        rwa [hi, hrot] at hring)
    rw [List.append_nil] at hring
    refine ⟨hR.update hring (fun p hp => .inl ?_) (.inl hxi) hkeep, hnull, hkeep⟩
    rw [hi]
    exact List.mem_cons_of_mem x hp

/-! ## Deletion in a loop -/

/-- A node is linked into a ring, wherever in it. -/
theorem addNode (hR : RingsAt N m R) (hc : c ∈ R j) (hx : x ∈ N) (hno : ∀ j, x ∉ R j)
    (tail : Bool) :
    ∃ R', RingsAt N (addNode tail m c x) R' ∧ (∀ k, k ≠ j → R' k = R k) ∧ ∀ q, q ∈ R' j ↔
      q ∈ R j ∨ q = x := by
  obtain ⟨l, hl⟩ := exists_coe_cons_of_mem hc
  cases tail with
  | true =>
    refine ⟨_, (hR.tail hl hx hno).1, fun k hk => Function.update_of_ne hk .., fun q => ?_⟩
    rw [Function.update_self, hl]
    simp [or_assoc]
  | false =>
    refine ⟨_, (hR.header hl hx hno).1, fun k hk => Function.update_of_ne hk .., fun q => ?_⟩
    rw [Function.update_self, hl]
    simp [or_comm, or_left_comm]

/-- A node is deleted from its ring, and linked into another one. -/
theorem delete_addNode (hR : RingsAt N m R) (hi : R i = ↑(h :: p :: l)) (hj : j ≠ i) (hc : c ∈ R j)
    (tail : Bool) :
    ∃ R', RingsAt N (Mem.addNode tail (m.delNodeFromRingDoubleList p) c p) R' ∧ R' i = ↑(h :: l) ∧
      (∀ k, k ≠ i → ∀ q ∈ R k, q ∈ R' k) ∧ p ∈ R' j := by
  have hrot : ((h :: p :: l : List ℕ) : Cycle ℕ) = ↑(p :: (l ++ [h])) :=
    coe_cons_append h [] (p :: l)
  have hrot' : ((l ++ [h] : List ℕ) : Cycle ℕ) = ↑(h :: l) := (coe_cons_append h [] l).symm
  have hpi : p ∈ R i := by simp [hi]
  obtain ⟨hdel, -, -⟩ := hR.delete (hi.trans hrot)
  rw [hrot'] at hdel
  -- The node is in no ring in between.
  have hno : ∀ k, p ∉ Function.update R i ↑(h :: l) k := by
    intro k hk
    by_cases hki : k = i
    · subst hki
      have hnd := (hR.family.ring k).nodup
      rw [hi, Cycle.nodup_coe_iff] at hnd
      rw [Function.update_self, Cycle.mem_coe_iff] at hk
      rcases List.mem_cons.1 hk with rfl | hk
      · exact (List.nodup_cons.1 hnd).1 List.mem_cons_self
      · exact (List.nodup_cons.1 (List.nodup_cons.1 hnd).2).1 hk
    · rw [Function.update_of_ne hki] at hk
      exact hki (hR.family.disjoint hk hpi)
  obtain ⟨R', hR', hother, hmem⟩ :=
    hdel.addNode (j := j) (by rwa [Function.update_of_ne hj]) (hR.mem hpi) hno tail
  refine ⟨R', hR', ?_, fun k hk q hq => ?_, (hmem p).2 (.inr rfl)⟩
  · rw [hother i hj.symm, Function.update_self]
  · have hq' : q ∈ Function.update R i ↑(h :: l) k := by rwa [Function.update_of_ne hk]
    by_cases hkj : k = j
    · subst hkj
      exact (hmem q).2 (.inl hq')
    · rwa [hother k hkj]

end RingsAt

/-- The body deletes the node, which is the one behind the header, and links it next to a node of
    another ring. -/
def Moves (N : Set ℕ) (R : ι → Cycle ℕ) (i : ι) (h : ℕ) (body : List ℕ → Mem → ℕ → Mem) : Prop :=
  ∀ visited m R' p l, RingsAt N m R' → (∀ k, k ≠ i → ∀ q ∈ R k, q ∈ R' k) → R' i = ↑(h :: p :: l) →
    ∃ j c tail, j ≠ i ∧ c ∈ R' j ∧
      body visited m p = addNode tail (m.delNodeFromRingDoubleList p) c p

/-- In the loop, with `k` turns to be taken: the rest of the ring, and the nodes visited, which are
    in the other rings. -/
structure WalkInv (N : Set ℕ) (R : ι → Cycle ℕ) (i : ι) (h : ℕ) (l : List ℕ) (k : ℕ)
    (w : Walk) : Prop where
  rings : ∃ R' rest, RingsAt N w.mem R' ∧ R' i = ↑(h :: rest) ∧ l = w.visited ++ rest ∧
    rest.length = k ∧
    (∀ k, k ≠ i → ∀ q ∈ R k, q ∈ R' k) ∧ ∀ q ∈ w.visited, ∃ j, j ≠ i ∧ q ∈ R' j
  p : w.p = w.mem.next h
  n : w.n = w.mem.next w.p

/-- The link of the first node, as a number. -/
theorem RingsAt.next_eq (hR : RingsAt N m R) (hi : R i = ↑(h :: l))
    (hq : (l ++ [h]).head? = some q) : m.next h = q := by
  have hring : m.linksOf.IsRing ↑(h :: l) := hi ▸ hR.family.ring i
  exact (ptr_eq_some.1 (hring.next_eq_head?.trans hq)).1

theorem WalkInv.stop {w : Walk} (hw : WalkInv N R i h l 0 w) : w.p = h := by
  obtain ⟨R', rest, hR', hi, -, hlen, -⟩ := hw.rings
  obtain rfl := List.length_eq_zero_iff.1 hlen
  rw [hw.p]
  exact hR'.next_eq hi rfl

theorem WalkInv.step [DecidableEq ι] {body : List ℕ → Mem → ℕ → Mem} {w : Walk} {k : ℕ}
    (hw : WalkInv N R i h l (k + 1) w) (hbody : Moves N R i h body) :
    w.p ≠ h ∧ WalkInv N R i h l k ⟨body w.visited w.mem w.p, w.visited ++ [w.p], w.n,
      (body w.visited w.mem w.p).next w.n⟩ := by
  obtain ⟨R', rest, hR', hi, hl, hlen, hgrow, hvisited⟩ := hw.rings
  obtain ⟨p, rest, rfl⟩ := List.exists_cons_of_length_eq_add_one hlen
  have hp : w.p = p := hw.p.trans (hR'.next_eq hi rfl)
  have hrot : ((h :: p :: rest : List ℕ) : Cycle ℕ) = ↑(p :: (rest ++ [h])) :=
    coe_cons_append h [] (p :: rest)
  obtain ⟨q, hq⟩ : ∃ q, (rest ++ [h]).head? = some q := by cases rest <;> simp
  -- What comes next has been read before the node is deleted, and comes right behind the header
  -- then.
  have hn : w.n = q := by
    rw [hw.n, hp]
    refine hR'.next_eq (hi.trans hrot) ?_
    cases rest with
    | nil => exact hq
    | cons r rest => exact hq
  obtain ⟨j, c, tail, hj, hc, heq⟩ := hbody w.visited w.mem R' p rest hR' hgrow hi
  obtain ⟨R'', hR'', hi', hgrow', hpj⟩ := hR'.delete_addNode hi hj hc tail
  rw [← heq] at hR''
  rw [hp]
  refine ⟨?_, ⟨R'', rest, hR'', hi', by rw [hl, List.append_assoc]; rfl, Nat.succ.inj hlen,
    fun k hk q hq => hgrow' k hk q (hgrow k hk q hq), fun q hq => ?_⟩, ?_, rfl⟩
  · rintro rfl
    have hnd := (hR'.family.ring i).nodup
    rw [hi, Cycle.nodup_coe_iff] at hnd
    exact (List.nodup_cons.1 hnd).1 List.mem_cons_self
  · rcases List.mem_append.1 hq with hq | hq
    · obtain ⟨j', hj', hq'⟩ := hvisited q hq
      exact ⟨j', hj', hgrow' j' hj' q hq'⟩
    · exact ⟨j, hj, List.mem_singleton.1 hq ▸ hpj⟩
  · exact hn.trans (hR''.next_eq hi' hq).symm

/-- The loop visits the nodes of the ring in order, and all of them end up in other rings. -/
theorem foreachSafe_spec [DecidableEq ι] {body : List ℕ → Mem → ℕ → Mem} {fuel : ℕ}
    (hR : RingsAt N m R)
    (hi : R i = ↑(h :: l)) (hbody : Moves N R i h body) (hfuel : l.length < fuel) :
    ∃ w R', foreachSafe fuel body m h = some w ∧ w.visited = l ∧ RingsAt N w.mem R' ∧ R' i = ↑[h] ∧
      (∀ k, k ≠ i → ∀ q ∈ R k, q ∈ R' k) ∧ ∀ q ∈ l, ∃ j, j ≠ i ∧ q ∈ R' j := by
  have hstart : WalkInv N R i h l l.length ⟨m, [], m.next h, m.next (m.next h)⟩ :=
    ⟨⟨R, l, hR, hi, rfl, rfl, fun _ _ _ hq => hq, fun q hq => absurd hq List.not_mem_nil⟩, rfl, rfl⟩
  obtain ⟨w, hloop, hw⟩ : ∃ w, foreachSafe fuel body m h = some w ∧ WalkInv N R i h l 0 w :=
    loop_spec (fun hw => (hw.step hbody).imp_left fun hne => decide_eq_true hne)
      (fun hw => decide_eq_false (not_not_intro hw.stop)) hstart hfuel
  obtain ⟨R', rest, hR', hi', hl, hlen, hgrow, hvisited⟩ := hw.rings
  obtain rfl := List.length_eq_zero_iff.1 hlen
  rw [List.append_nil] at hl
  subst hl
  exact ⟨w, R', hloop, rfl, hR', hi', hgrow, hvisited⟩

/-! ## All of it -/

/-- The ring lists of `list.h` are the sequences they represent. -/
theorem ringLists_refine [DecidableEq ι] (hR : RingsAt N m R) (hi : R i = ↑(h :: l)) :
    (∀ x ∈ N, (∀ j, x ∉ R j) →
      (RingsAt N (m.addNodeToRingDoubleListHeader h x) (Function.update R i ↑(h :: x :: l)) ∧
        KeepsAllBut m (m.addNodeToRingDoubleListHeader h x) (R i) x) ∧
      (RingsAt N (m.addNodeToRingDoubleListTail h x) (Function.update R i ↑(h :: (l ++ [x]))) ∧
        KeepsAllBut m (m.addNodeToRingDoubleListTail h x) (R i) x)) ∧
    (RingsAt N (m.delNodeFromRingDoubleList h) (Function.update R i ↑l) ∧
      ((m.delNodeFromRingDoubleList h).next h = 0 ∧ (m.delNodeFromRingDoubleList h).prev h = 0) ∧
      KeepsAllBut m (m.delNodeFromRingDoubleList h) (R i) h) ∧
    ∀ body fuel, Moves N R i h body → l.length < fuel →
      ∃ w R', foreachSafe fuel body m h = some w ∧ w.visited = l ∧ RingsAt N w.mem R' ∧
        R' i = ↑[h] ∧
        (∀ k, k ≠ i → ∀ q ∈ R k, q ∈ R' k) ∧ ∀ q ∈ l, ∃ j, j ≠ i ∧ q ∈ R' j :=
  ⟨fun _ hx hno => ⟨hR.header hi hx hno, hR.tail hi hx hno⟩, hR.delete hi,
    fun _ _ hbody hfuel => foreachSafe_spec hR hi hbody hfuel⟩

/-- A ring of three nodes, and one of one node. -/
def twoRings : Mem := fun a =>
  if a = 8 ∨ a = 36 then 16 else if a = 16 ∨ a = 12 then 32 else if a = 32 ∨ a = 20 then 8 else 24

/-- The rings, as cycles. -/
def twoCycles : Bool → Cycle ℕ
  | true => ↑[8, 16, 32]
  | false => ↑[24]

/-- The nodes of the rings, and one of no ring. -/
def fiveNodes : Set ℕ := {p | p = 8 ∨ p = 16 ∨ p = 24 ∨ p = 32 ∨ p = 40}

theorem ringsAt_twoRings : RingsAt fiveNodes twoRings twoCycles where
  nodes := by rintro p (rfl | rfl | rfl | rfl | rfl) <;> simp [fiveNodes]
  family := by
    refine ⟨fun b => ?_, fun {b b' x} hb hb' => ?_⟩
    · cases b with
      | false =>
        refine ⟨Cycle.nodup_coe_iff.2 (by decide), ?_⟩
        simp [twoCycles, Linked, linksOf, twoRings, next, prev, ptr, word]
      | true =>
        refine ⟨Cycle.nodup_coe_iff.2 (by decide), ?_⟩
        simp [twoCycles, Linked, linksOf, twoRings, next, prev, ptr, word]
    · cases b <;> cases b' <;> simp_all [twoCycles]
  mem {b p} hp := by
    cases b <;> simp [twoCycles] at hp <;> grind [fiveNodes]

/-- A node is inserted, the header is deleted, and the two nodes behind the header go to the other
    ring, one before its header and one behind it. -/
theorem ringLists_refine_two :
    RingsAt fiveNodes (twoRings.addNodeToRingDoubleListHeader 8 40)
      (Function.update twoCycles true ↑[8, 40, 16, 32]) ∧
    RingsAt fiveNodes (twoRings.delNodeFromRingDoubleList 8)
      (Function.update twoCycles true ↑[16, 32]) ∧
    ∃ w R', foreachSafe 3 (fun visited m p =>
        addNode visited.isEmpty (m.delNodeFromRingDoubleList p) 24 p) twoRings 8 = some w ∧
      w.visited = [16, 32] ∧ RingsAt fiveNodes w.mem R' ∧ R' true = ↑[8] ∧
        ∀ q ∈ [24, 16, 32], q ∈ R' false := by
  have hmoves : Moves fiveNodes twoCycles true 8 fun visited m p =>
      addNode visited.isEmpty (m.delNodeFromRingDoubleList p) 24 p :=
    fun visited m R' p l _ hgrow _ => ⟨false, 24, visited.isEmpty, by decide,
      hgrow false (by decide) 24 (by simp [twoCycles]), rfl⟩
  have hi : twoCycles true = ↑(8 :: [16, 32]) := rfl
  have hno : ∀ b, 40 ∉ twoCycles b := fun b => by cases b <;> simp [twoCycles]
  obtain ⟨hinsert, hdelete, hwalk⟩ := ringLists_refine ringsAt_twoRings hi
  obtain ⟨w, R', hw, hvisited, hR', hheader, hgrow, hmoved⟩ := hwalk _ 3 hmoves (by decide)
  refine ⟨(hinsert 40 (by simp [fiveNodes]) hno).1.1, hdelete.1, w, R', hw, hvisited, hR',
    hheader, ?_⟩
  intro q hq
  rcases List.mem_cons.1 hq with rfl | hq
  · exact hgrow false (by decide) 24 (by simp [twoCycles])
  · obtain ⟨b, hb, hq'⟩ := hmoved q hq
    rwa [Bool.eq_false_iff.2 hb] at hq'

end DemoOs.Mem
