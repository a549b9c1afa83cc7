import DemoOs.Lib.Tiling
import DemoOs.Mm.Heap

/-!
# The heap as a tiling

A memory represents a tiling of the blocks of the heap (`Heap.Rep`) when every segment has its
descriptor in memory, and the free ring visits free segments only. Every step of `allocate` and
`free` is an operation of tilings:

* `cut` splits a segment (`Rep.cut`), and `merge` lets it absorb its right neighbour (`Rep.merge`);
* linking a segment (`Rep.link`), removing it (`Rep.take`) and normalising its header
  (`Rep.normalise`) change which segments are free.

Between two steps a free segment may be missing from the ring: `Rep` does not ask for all of them.
-/

namespace DemoOs

namespace Heap

open Mem

/-- The descriptor of the segment `s` is at `a`, and the word before its payload is its header
    offset. -/
structure SegAt (m : Mem) (a : ℕ) (s : Seg) : Prop where
  left : m a = s.left
  right : m (a + 4) = s.right
  avail : m (a + 16) = s.avail
  hoff : m (a + 20) = s.hoff
  tag : m (a + s.hoff - 4) = s.hoff

/-- The blocks `B` lie in the address space and apart from the header of the free ring, and `T`
    tiles them by word-aligned segments. -/
structure Layout (header : ℕ) (B : Set (ℕ × ℕ)) (T : Tiling) : Prop where
  wf : T.Wf 24 B
  lt : ∀ b ∈ B, b.2 < 2 ^ 32
  apart : ∀ b ∈ B, header + 8 ≤ b.1 ∨ b.2 ≤ header
  header_pos : 0 < header
  header_lt : header + 4 < 2 ^ 32
  aligned : ∀ ⦃a s⦄, T a = some s → 4 ∣ a

/-- The memory `m` holds the tiling `T`, some of its free segments being linked in the free ring, in
    the order `R`. -/
structure Rep (header : ℕ) (B : Set (ℕ × ℕ)) (m : Mem) (T : Tiling) (R : List ℕ) : Prop where
  layout : Layout header B T
  seg : ∀ ⦃a s⦄, T a = some s → SegAt m a s
  ring : m.linksOf.IsRing ↑(header :: R.map (· + 8))
  mem_ring : ∀ a ∈ R, ∃ s, T a = some s ∧ s.free
  null : ∀ ⦃a s⦄, T a = some s → s.free = false → m (a + 8) = 0 ∧ m (a + 12) = 0

variable {header : ℕ} {B : Set (ℕ × ℕ)} {T : Tiling} {m m' : Mem} {R : List ℕ} {a : ℕ} {s : Seg}

/-! ## Addresses -/

/-- A segment lies in the address space. -/
theorem Layout.bound (h : Layout header B T) (ha : T a = some s) :
    0 < a ∧ 24 ≤ s.hoff ∧ a + s.hoff + s.avail < 2 ^ 32 := by
  obtain ⟨hb, -, h₂⟩ := h.wf.block ha
  have h₃ := h.lt _ hb
  have h₄ := h.wf.header ha
  rw [Seg.len] at h₂
  exact ⟨Nat.pos_of_ne_zero (h.wf.ne_zero ha), h₄, by omega⟩

/-- A segment is apart from the header of the free ring. -/
theorem Layout.header_apart (h : Layout header B T) (ha : T a = some s) :
    header + 8 ≤ a ∨ a + s.hoff + s.avail ≤ header := by
  obtain ⟨hb, h₁, h₂⟩ := h.wf.block ha
  rw [Seg.len] at h₂
  have := h.apart _ hb
  simp only at this
  omega

/-- Two segments are apart. -/
theorem Layout.sep (h : Layout header B T) {b : ℕ} {t : Seg} (ha : T a = some s) (hb : T b = some t)
    (hab : a ≠ b) : a + s.hoff + s.avail ≤ b ∨ b + t.hoff + t.avail ≤ a := by
  have := h.wf.sep ha hb hab
  simp only [Seg.len] at this
  omega

/-- The right neighbour of a segment starts where it ends. -/
theorem Layout.right_eq (h : Layout header B T) (ha : T a = some s) :
    s.right = 0 ∨ s.right = a + s.hoff + s.avail := by
  by_cases hr : s.right = 0
  · exact .inl hr
  · have := (h.wf.right ha hr).1
    rw [Seg.len] at this
    omega

/-- The header of another segment than its right neighbour does not contain the start of that
    neighbour. -/
theorem Layout.ne_right (h : Layout header B T) {c : ℕ} {u : Seg} (hc : T c = some u) {o : ℕ}
    (ho : o < u.hoff) (hcs : c ≠ s.right) (ha : T a = some s) : c + o ≠ s.right := by
  intro e
  have h₁ := h.bound hc
  by_cases hr : s.right = 0
  · omega
  · obtain ⟨t, ht, -⟩ := (h.wf.right ha hr).2
    have h₂ := h.sep hc ht hcs
    have h₃ := h.bound ht
    omega

theorem Layout.header_ne_right (h : Layout header B T) (ha : T a = some s) :
    header ≠ s.right ∧ header + 4 ≠ s.right := by
  have h₁ := h.header_pos
  by_cases hr : s.right = 0
  · omega
  · obtain ⟨t, ht, -⟩ := (h.wf.right ha hr).2
    have h₂ := h.header_apart ht
    have h₃ := h.bound ht
    omega

theorem Layout.doubleList_eq (h : Layout header B T) (ha : T a = some s) :
    doubleList a = a + 8 := by
  obtain ⟨-, h₁, h₂⟩ := h.bound ha
  exact word_eq (by omega)

theorem Layout.listEntry_eq (h : Layout header B T) (ha : T a = some s) :
    listEntry (a + 8) = a := by
  obtain ⟨-, h₁, h₂⟩ := h.bound ha
  rw [listEntry, wordSub_eq (by omega) (by omega), Nat.add_sub_cancel]

/-- Another tiling of the same blocks. -/
theorem Layout.of_wf {T' : Tiling} (h : Layout header B T) (hwf : T'.Wf 24 B)
    (hal : ∀ ⦃a s⦄, T' a = some s → 4 ∣ a) : Layout header B T' :=
  { h with wf := hwf, aligned := hal }

section Read

variable (h : Rep header B m T R) (ha : T a = some s)

include h ha

theorem Rep.left_eq : m.left a = s.left := (h.seg ha).left

theorem Rep.right_eq : m.right a = s.right := by
  obtain ⟨-, h₁, h₂⟩ := h.layout.bound ha
  rw [Mem.right, word_eq (by omega), (h.seg ha).right]

theorem Rep.availableSize_eq : m.availableSize a = s.avail := by
  obtain ⟨-, h₁, h₂⟩ := h.layout.bound ha
  rw [Mem.availableSize, word_eq (by omega), (h.seg ha).avail]

theorem Rep.headerOffset_eq : m.headerOffset a = s.hoff := by
  obtain ⟨-, h₁, h₂⟩ := h.layout.bound ha
  rw [Mem.headerOffset, word_eq (by omega), (h.seg ha).hoff]

theorem Rep.prev_eq : m.prev (a + 8) = m (a + 12) := by
  obtain ⟨-, h₁, h₂⟩ := h.layout.bound ha
  rw [Mem.prev, word_eq (by omega)]

end Read

/-! ## The nodes of the free ring -/

/-- The list nodes of the header and of the segments `R`. -/
def ringNodes (header : ℕ) (R : List ℕ) : Set ℕ := {p | p = header ∨ ∃ a ∈ R, p = a + 8}

theorem mem_ringNodes_of_mem {p : ℕ} (hp : p ∈ header :: R.map (· + 8)) :
    p ∈ ringNodes header R := by
  rcases List.mem_cons.1 hp with rfl | hp
  · exact .inl rfl
  · obtain ⟨c, hc, rfl⟩ := List.mem_map.1 hp
    exact .inr ⟨c, hc, rfl⟩

theorem Layout.nodes (h : Layout header B T) (hR : ∀ a ∈ R, ∃ s, T a = some s) :
    Nodes (ringNodes header R) := by
  rintro p (rfl | ⟨c, hc, rfl⟩)
  · refine ⟨h.header_pos, h.header_lt, ?_⟩
    rintro (e | ⟨d, hd, e⟩)
    · omega
    · obtain ⟨u, hu⟩ := hR d hd
      have h₁ := h.bound hu
      have h₂ := h.header_apart hu
      omega
  · obtain ⟨t, ht⟩ := hR c hc
    have h₁ := h.bound ht
    refine ⟨by omega, by omega, ?_⟩
    rintro (e | ⟨d, hd, e⟩)
    · have h₂ := h.header_apart ht
      omega
    · obtain ⟨u, hu⟩ := hR d hd
      have h₂ := h.bound hu
      have h₃ := h.sep ht hu (by omega)
      omega

/-- The list nodes of the segments `R` do not touch the rest of the descriptors. -/
theorem Layout.not_cell (h : Layout header B T) (hR : ∀ a ∈ R, ∃ s, T a = some s)
    (ha : T a = some s) {o : ℕ} (ho : o < s.hoff) (h₀ : a ∉ R ∨ o ≠ 8 ∧ o ≠ 12) :
    ¬Cell (ringNodes header R) (a + o) := by
  have h₁ := h.bound ha
  have h₂ := h.header_apart ha
  rintro ⟨p, rfl | ⟨c, hc, rfl⟩, hp⟩
  · omega
  · obtain ⟨t, ht⟩ := hR c hc
    have h₃ := h.bound ht
    by_cases hca : c = a
    · subst hca
      have := h₀.resolve_left (not_not_intro hc)
      omega
    · have h₄ := h.sep ht ha hca
      omega

/-- A descriptor in a memory with the same words, its links apart. -/
theorem SegAt.congr (h : SegAt m a s) (hs : 24 ≤ s.hoff)
    (hm : ∀ o < s.hoff, o ≠ 8 → o ≠ 12 → m' (a + o) = m (a + o)) : SegAt m' a s where
  left := (hm 0 (by omega) (by omega) (by omega)).trans h.left
  right := (hm 4 (by omega) (by omega) (by omega)).trans h.right
  avail := (hm 16 (by omega) (by omega) (by omega)).trans h.avail
  hoff := (hm 20 (by omega) (by omega) (by omega)).trans h.hoff
  tag := by
    have := hm (s.hoff - 4) (by omega) (by omega) (by omega)
    rw [← Nat.add_sub_assoc (by omega)] at this
    exact this.trans h.tag

/-- A descriptor whose left neighbour alone changes. -/
theorem SegAt.setLeft (h : SegAt m a s) (hs : 24 ≤ s.hoff) {v : ℕ} (hv : m' a = v)
    (hm : ∀ o < s.hoff, o ≠ 0 → m' (a + o) = m (a + o)) : SegAt m' a { s with left := v } where
  left := hv
  right := (hm 4 (by omega) (by omega)).trans h.right
  avail := (hm 16 (by omega) (by omega)).trans h.avail
  hoff := (hm 20 (by omega) (by omega)).trans h.hoff
  tag := by
    have := hm (s.hoff - 4) (by omega) (by omega)
    rw [← Nat.add_sub_assoc (by omega)] at this
    exact this.trans h.tag

/-- The free ring in a memory with the same list nodes. -/
theorem Rep.ring_congr (h : Rep header B m T R)
    (hhdr : m' header = m header ∧ m' (header + 4) = m (header + 4))
    (hm : ∀ c ∈ R, m' (c + 8) = m (c + 8) ∧ m' (c + 12) = m (c + 12)) :
    m'.linksOf.IsRing ↑(header :: R.map (· + 8)) := by
  refine h.ring.congr fun p hp => ?_
  have hN := h.layout.nodes fun c hc => (h.mem_ring c hc).imp fun u hu => hu.1
  have hpN : p ∈ ringNodes header R := mem_ringNodes_of_mem (Cycle.mem_coe_iff.1 hp)
  simp only [linksOf, Mem.next, Mem.prev, hN.prev_addr hpN]
  rcases hpN with rfl | ⟨c, hc, rfl⟩
  · rw [hhdr.1, hhdr.2]
    exact ⟨rfl, rfl⟩
  · rw [(hm c hc).1, (hm c hc).2]
    exact ⟨rfl, rfl⟩

/-- A heap in a memory with the same list nodes, of segments among which are those of the free ring,
    and of which none is in use that was not. -/
theorem Rep.of_links {B' : Set (ℕ × ℕ)} {T' : Tiling} (h : Rep header B m T R)
    (layout : Layout header B' T') (seg : ∀ ⦃a s⦄, T' a = some s → SegAt m' a s)
    (hhdr : m' header = m header ∧ m' (header + 4) = m (header + 4))
    (hlinks : ∀ ⦃c u v⦄, T c = some u → T' c = some v → ∀ o, o = 8 ∨ o = 12 →
      m' (c + o) = m (c + o))
    (mem_ring : ∀ c ∈ R, ∃ u, T' c = some u ∧ u.free)
    (used : ∀ ⦃c u⦄, T' c = some u → u.free = false → ∃ v, T c = some v ∧ v.free = false) :
    Rep header B' m' T' R := by
  refine ⟨layout, seg, h.ring_congr hhdr fun c hc => ?_, mem_ring, fun c u hc hu => ?_⟩
  · obtain ⟨u, hu, -⟩ := h.mem_ring c hc
    obtain ⟨v, hv, -⟩ := mem_ring c hc
    exact ⟨hlinks hu hv 8 (.inl rfl), hlinks hu hv 12 (.inr rfl)⟩
  · obtain ⟨v, hv, hvf⟩ := used hc hu
    rw [hlinks hv hc 8 (.inl rfl), hlinks hv hc 12 (.inr rfl)]
    exact h.null hv hvf

/-! ## Linking and unlinking -/

/-- A heap in a memory which differs from one with the same descriptors in cells of list nodes
    only. -/
theorem Rep.of_frame {N : Set ℕ} (layout : Layout header B T)
    (seg : ∀ ⦃c u⦄, T c = some u → SegAt m c u)
    (null : ∀ ⦃c u⦄, T c = some u → u.free = false → m (c + 8) = 0 ∧ m (c + 12) = 0)
    (hcell : ∀ ⦃c u⦄, T c = some u → ∀ o < u.hoff, (u.free → o ≠ 8 ∧ o ≠ 12) → ¬Cell N (c + o))
    (hframe : ∀ y, ¬Cell N y → m' y = m y) (ring : m'.linksOf.IsRing ↑(header :: R.map (· + 8)))
    (mem_ring : ∀ a ∈ R, ∃ s, T a = some s ∧ s.free) : Rep header B m' T R := by
  refine ⟨layout, fun c u hc => ?_, ring, mem_ring, fun c u hc hu => ?_⟩
  · exact (seg hc).congr (layout.bound hc).2.1 fun o ho h₈ h₁₂ =>
      hframe _ (hcell hc o ho fun _ => ⟨h₈, h₁₂⟩)
  · have hoff := (layout.bound hc).2.1
    have hused : ∀ {o : ℕ}, u.free → o ≠ 8 ∧ o ≠ 12 := fun hf => by
      rw [hu] at hf
      cases hf
    rw [hframe _ (hcell hc 8 (by omega) hused), hframe _ (hcell hc 12 (by omega) hused)]
    exact null hc hu

/-- A change of the free ring which touches no other list nodes than those of free segments. -/
theorem Rep.relink (h : Rep header B m T R) {Q R' : List ℕ}
    (hQ : ∀ c ∈ Q, ∃ u, T c = some u ∧ u.free) (hR' : ∀ c ∈ R', c ∈ Q)
    (hring : m'.linksOf.IsRing ↑(header :: R'.map (· + 8)))
    (hframe : ∀ y, ¬Cell (ringNodes header Q) y → m' y = m y) : Rep header B m' T R' := by
  have hQ' : ∀ c ∈ Q, ∃ u, T c = some u := fun c hc => (hQ c hc).imp fun u hu => hu.1
  refine .of_frame h.layout h.seg h.null (fun c u hc o ho hf => ?_) hframe hring fun c hc =>
    hQ c (hR' c hc)
  refine h.layout.not_cell hQ' hc ho ?_
  by_cases hcQ : c ∈ Q
  · obtain ⟨v, hv, hvf⟩ := hQ c hcQ
    rw [hc] at hv
    exact .inr (hf (Option.some.inj hv ▸ hvf))
  · exact .inl hcQ

theorem not_mem_header_cons (h : Rep header B m T R) (ha : T a = some s) (haR : a ∉ R) :
    a + 8 ∉ header :: R.map (· + 8) := by
  have h₁ := h.layout.bound ha
  have h₂ := h.layout.header_apart ha
  simp only [List.mem_cons, List.mem_map, Nat.add_right_cancel_iff, exists_eq_right, not_or]
  exact ⟨by omega, haR⟩

/-- A segment enters a ring of list nodes. -/
theorem link_spec {N : Set ℕ} {node : ℕ} {Q : List ℕ} (hN : Nodes N)
    (hQN : ∀ p ∈ (node + 8) :: header :: Q.map (· + 8), p ∈ N) (hnode : doubleList node = node + 8)
    (hring : m.linksOf.IsRing ↑(header :: Q.map (· + 8)))
    (hnot : node + 8 ∉ header :: Q.map (· + 8)) :
    ∃ Q' : List ℕ, (∀ x, x ∈ Q' ↔ x = node ∨ x ∈ Q) ∧
      (Heap.link header m node).linksOf.IsRing ↑(header :: Q'.map (· + 8)) ∧
      ∀ y, ¬Cell N y → Heap.link header m node y = m y := by
  rw [Heap.link, hnode]
  split_ifs
  · obtain ⟨hring', hframe⟩ := addNodeToRingDoubleListTail_spec hN hQN hring hnot
    refine ⟨Q ++ [node], ?_, by simpa using hring', hframe⟩
    simp only [List.mem_append, List.mem_singleton]
    tauto
  · obtain ⟨hring', hframe⟩ := addNodeToRingDoubleListHeader_spec hN hQN hring hnot
    exact ⟨node :: Q, fun x => List.mem_cons, by simpa using hring', hframe⟩

/-- A segment leaves a ring of list nodes. -/
theorem unlink_spec {N : Set ℕ} {Q : List ℕ} (hN : Nodes N)
    (hQN : ∀ p ∈ header :: Q.map (· + 8), p ∈ N)
    (hring : m.linksOf.IsRing ↑(header :: Q.map (· + 8))) (haQ : a ∈ Q) :
    (m.delNodeFromRingDoubleList (a + 8)).linksOf.IsRing ↑(header :: (Q.erase a).map (· + 8)) ∧
      ((m.delNodeFromRingDoubleList (a + 8)).next (a + 8) = 0 ∧
        (m.delNodeFromRingDoubleList (a + 8)).prev (a + 8) = 0) ∧
      ∀ y, ¬Cell N y → m.delNodeFromRingDoubleList (a + 8) y = m y := by
  obtain ⟨Q₁, Q₂, -, rfl, herase⟩ := List.exists_erase_eq haQ
  rw [List.map_append, List.map_cons] at hring
  obtain ⟨hring', hnull, hframe⟩ := delNodeFromRingDoubleList_spec hN (by simpa using hQN) hring
  exact ⟨by simpa [herase] using hring', hnull, hframe⟩

/-- A free segment enters the free ring as its last one. -/
theorem Rep.addTail (h : Rep header B m T R) (ha : T a = some s) (hf : s.free) (haR : a ∉ R) :
    Rep header B (m.addNodeToRingDoubleListTail header (a + 8)) T (R ++ [a]) := by
  have hQ : ∀ c ∈ a :: R, ∃ u, T c = some u ∧ u.free := by
    rintro c (_ | ⟨_, hc⟩)
    exacts [⟨s, ha, hf⟩, h.mem_ring c hc]
  obtain ⟨hring, hframe⟩ := addNodeToRingDoubleListTail_spec (N := ringNodes header (a :: R))
    (h.layout.nodes fun c hc => (hQ c hc).imp fun u hu => hu.1)
    (fun p hp => mem_ringNodes_of_mem ((List.Perm.swap header (a + 8) _).mem_iff.1 hp)) h.ring
    (not_mem_header_cons h ha haR)
  exact h.relink hQ (by simp only [List.mem_append, List.mem_cons]; tauto) (by simpa using hring)
    hframe

/-- A free segment enters the free ring. -/
theorem Rep.link (h : Rep header B m T R) (ha : T a = some s) (hf : s.free) (haR : a ∉ R) :
    ∃ R', (∀ x, x ∈ R' ↔ x = a ∨ x ∈ R) ∧ Rep header B (Heap.link header m a) T R' := by
  have hQ : ∀ c ∈ a :: R, ∃ u, T c = some u ∧ u.free := by
    rintro c (_ | ⟨_, hc⟩)
    exacts [⟨s, ha, hf⟩, h.mem_ring c hc]
  obtain ⟨R', hR', hring, hframe⟩ := link_spec (N := ringNodes header (a :: R))
    (h.layout.nodes fun c hc => (hQ c hc).imp fun u hu => hu.1)
    (fun p hp => mem_ringNodes_of_mem ((List.Perm.swap header (a + 8) _).mem_iff.1 hp))
    (h.layout.doubleList_eq ha) h.ring (not_mem_header_cons h ha haR)
  exact ⟨R', hR', h.relink hQ (fun c hc => List.mem_cons.2 ((hR' c).1 hc)) hring hframe⟩

/-- The segments of the free ring are free. -/
theorem Rep.free_of_mem (h : Rep header B m T R) (ha : T a = some s) (haR : a ∈ R) : s.free := by
  obtain ⟨u, hu, huf⟩ := h.mem_ring a haR
  rw [ha] at hu
  exact Option.some.inj hu ▸ huf

/-- A segment in use is not in the free ring. -/
theorem Rep.not_mem_of_used (h : Rep header B m T R) (ha : T a = some s) (hf : s.free = false) :
    a ∉ R := by
  intro haR
  rw [h.free_of_mem ha haR] at hf
  cases hf

theorem Rep.nodup (h : Rep header B m T R) : R.Nodup :=
  (List.nodup_cons.1 (Cycle.nodup_coe_iff.1 h.ring.nodup)).2.of_map _

/-- A segment without links, and not in the free ring, counts as one in use. -/
theorem Rep.use (h : Rep header B m T R) (ha : T a = some s) (haR : a ∉ R)
    (hnull : m (a + 8) = 0 ∧ m (a + 12) = 0) : Rep header B m (T.setFree 24 a s false) R := by
  have happ := T.setFree_false_apply 24 a s
  constructor
  case layout =>
    refine h.layout.of_wf (h.layout.wf.setFree ha false) fun c u hc => ?_
    rw [happ] at hc
    split_ifs at hc with hca
    exacts [hca ▸ h.layout.aligned ha, h.layout.aligned hc]
  case seg =>
    intro c u hc
    rw [happ] at hc
    split_ifs at hc with hca
    · subst hca
      obtain rfl := Option.some.inj hc
      have := h.seg ha
      exact ⟨this.left, this.right, this.avail, this.hoff, this.tag⟩
    · exact h.seg hc
  case ring => exact h.ring
  case mem_ring =>
    intro c hc
    rw [happ, if_neg (by rintro rfl; exact haR hc)]
    exact h.mem_ring c hc
  case null =>
    intro c u hc hu
    rw [happ] at hc
    split_ifs at hc with hca
    exacts [hca ▸ hnull, h.null hc hu]

/-- A free segment leaves the free ring, and is then in use. -/
theorem Rep.take (h : Rep header B m T R) (ha : T a = some s) (haR : a ∈ R) :
    Rep header B (m.delNodeFromRingDoubleList (a + 8)) (T.setFree 24 a s false) (R.erase a) := by
  have hQ : ∀ c ∈ R, ∃ u, T c = some u := fun c hc => (h.mem_ring c hc).imp fun u hu => hu.1
  obtain ⟨hring, hnull, hframe⟩ :=
    unlink_spec (h.layout.nodes hQ) (fun p => mem_ringNodes_of_mem) h.ring haR
  have h' : Rep header B (m.delNodeFromRingDoubleList (a + 8)) T (R.erase a) :=
    h.relink h.mem_ring (fun c => List.mem_of_mem_erase) hring hframe
  obtain ⟨-, h₁, h₂⟩ := h.layout.bound ha
  rw [Mem.next, Mem.prev, word_eq (by omega)] at hnull
  exact h'.use ha h.nodup.not_mem_erase hnull

/-- The links of a segment out of the free ring are cleared, and it counts as one in use. -/
theorem Rep.clear (h : Rep header B m T R) (ha : T a = some s) (haR : a ∉ R)
    (hm : ∀ x, m' x = if x = a + 8 ∨ x = a + 12 then 0 else m x) :
    Rep header B m' (T.setFree 24 a s false) R := by
  have h₁ := h.layout.bound ha
  -- Only the two links of `a` are written.
  have hframe : ∀ {c u}, T c = some u → ∀ o < u.hoff, (c = a → o ≠ 8 ∧ o ≠ 12) →
      m' (c + o) = m (c + o) := by
    intro c u hc o ho hca
    rw [hm, if_neg]
    by_cases e : c = a
    · omega
    · have h₂ := h.layout.sep hc ha e
      have h₃ := h.layout.bound hc
      omega
  have hring : m'.linksOf.IsRing ↑(header :: R.map (· + 8)) := by
    refine h.ring_congr ?_ fun c hc => ?_
    · have := h.layout.header_apart ha
      exact ⟨(hm _).trans (if_neg (by omega)), (hm _).trans (if_neg (by omega))⟩
    · obtain ⟨u, hu, -⟩ := h.mem_ring c hc
      have hoff := (h.layout.bound hu).2.1
      have hca : c ≠ a := by rintro rfl; exact haR hc
      exact ⟨hframe hu 8 (by omega) (absurd · hca), hframe hu 12 (by omega) (absurd · hca)⟩
  have hnull : m' (a + 8) = 0 ∧ m' (a + 12) = 0 :=
    ⟨(hm _).trans (if_pos (.inl rfl)), (hm _).trans (if_pos (.inr rfl))⟩
  have h' : Rep header B m' T R := by
    refine ⟨h.layout, fun c u hc => ?_, hring, h.mem_ring, fun c u hc hu => ?_⟩
    · exact (h.seg hc).congr (h.layout.bound hc).2.1 fun o ho h₈ h₁₂ =>
        hframe hc o ho fun _ => ⟨h₈, h₁₂⟩
    · by_cases hca : c = a
      · exact hca ▸ hnull
      · have hoff := (h.layout.bound hc).2.1
        rw [hframe hc 8 (by omega) (absurd · hca), hframe hc 12 (by omega) (absurd · hca)]
        exact h.null hc hu
  exact h'.use ha haR hnull

/-! ## Cutting -/

section Cut

variable (h : Rep header B m T R) (ha : T a = some s) {k : ℕ} (hk : k + 24 ≤ s.avail)

include h ha hk

/-- The stores of `cut`: the descriptor of the new segment, the right neighbour and the length of
    the old one, and the left neighbour of the segment after both. -/
theorem Rep.cut_apply (x : ℕ) :
    Heap.cut m a k x =
      if x = a + 16 then k
      else if x = a + s.hoff + k + 20 then 24
      else if x = a + s.hoff + k + 16 then s.avail - k - 24
      else if s.right ≠ 0 ∧ x = s.right then a + s.hoff + k
      else if x = a + 4 then a + s.hoff + k
      else if x = a + s.hoff + k then a
      else if x = a + s.hoff + k + 4 then s.right
      else m x := by
  obtain ⟨hpos, hoff, hlt⟩ := h.layout.bound ha
  have hnew : word (word (a + m.headerOffset a) + k) = a + s.hoff + k := by
    have : word (a + s.hoff) = a + s.hoff := word_eq (by omega)
    rw [h.headerOffset_eq ha, this, word_eq (by omega)]
  have hsize :
      wordSub (wordSub (m.availableSize a) k) sizeofHeapSegmentDesc = s.avail - k - 24 := by
    have : wordSub s.avail k = s.avail - k := wordSub_eq (by omega) (by omega)
    rw [h.availableSize_eq ha, this, sizeofHeapSegmentDesc, wordSub_eq (by omega) (by omega)]
  have w₁ : word (a + s.hoff + k + 4) = a + s.hoff + k + 4 := word_eq (by omega)
  have w₂ : word (a + s.hoff + k + 16) = a + s.hoff + k + 16 := word_eq (by omega)
  have w₃ : word (a + s.hoff + k + 20) = a + s.hoff + k + 20 := word_eq (by omega)
  have w₄ : word (a + 4) = a + 4 := word_eq (by omega)
  have w₅ : word (a + 16) = a + 16 := word_eq (by omega)
  simp only [Heap.cut, hnew, hsize, h.right_eq ha]
  simp only [setRight, setLeft, setAvailableSize, setHeaderOffset, Mem.right, w₁, w₂, w₃, w₄, w₅,
    sizeofHeapSegmentDesc]
  have hread : (((m.write (a + s.hoff + k + 4) s.right).write (a + s.hoff + k) a).write (a + 4)
      (a + s.hoff + k)) (a + s.hoff + k + 4) = s.right := by
    rw [write_apply, if_neg (by omega), write_apply, if_neg (by omega), write_apply, if_pos rfl]
  rw [hread]
  by_cases hr : s.right = 0
  · simp [hr]
  · simp [hr]

/-- Outside of the segment cut, only the left neighbour of the next one changes. -/
theorem Rep.cut_outside {x : ℕ} (hx : x < a ∨ a + s.hoff + s.avail ≤ x) (hxr : x ≠ s.right) :
    Heap.cut m a k x = m x := by
  rw [h.cut_apply ha hk]
  repeat rw [if_neg (by omega)]

/-- The words of its descriptor which the segment cut keeps. -/
theorem Rep.cut_inside {o : ℕ} (ho : o < s.hoff) (h₄ : o ≠ 4) (h₁₆ : o ≠ 16) :
    Heap.cut m a k (a + o) = m (a + o) := by
  have hbnd := h.layout.bound ha
  have hr := h.layout.right_eq ha
  rw [h.cut_apply ha hk]
  repeat rw [if_neg (by omega)]

theorem Rep.cut_right (hr : s.right ≠ 0) : Heap.cut m a k s.right = a + s.hoff + k := by
  have hbnd := h.layout.bound ha
  have hr' := h.layout.right_eq ha
  rw [h.cut_apply ha hk, if_neg (by omega), if_neg (by omega), if_neg (by omega),
    if_pos ⟨hr, rfl⟩]

theorem Rep.cut_self : SegAt (Heap.cut m a k) a { s with right := a + s.hoff + k, avail := k } := by
  have hbnd := h.layout.bound ha
  have hr := h.layout.right_eq ha
  have hseg := h.seg ha
  have hcut := h.cut_apply ha hk
  have hin := fun o => h.cut_inside (o := o) ha hk
  refine ⟨(hin 0 (by omega) (by omega) (by omega)).trans hseg.left, ?_, ?_,
    (hin 20 (by omega) (by omega) (by omega)).trans hseg.hoff, ?_⟩
  · rw [hcut, if_neg (by omega), if_neg (by omega), if_neg (by omega), if_neg (by omega),
      if_pos rfl]
  · rw [hcut, if_pos rfl]
  · have := hin (s.hoff - 4) (by omega) (by omega) (by omega)
    rw [← Nat.add_sub_assoc (by omega)] at this
    exact this.trans hseg.tag

theorem Rep.cut_new : SegAt (Heap.cut m a k) (a + s.hoff + k)
    { s with left := a, hoff := 24, avail := s.avail - k - 24, free := true } := by
  have hbnd := h.layout.bound ha
  have hr := h.layout.right_eq ha
  have hcut := h.cut_apply ha hk
  have h₂₀ : Heap.cut m a k (a + s.hoff + k + 20) = 24 := by
    rw [hcut, if_neg (by omega), if_pos rfl]
  refine ⟨?_, ?_, ?_, h₂₀, h₂₀⟩
  · rw [hcut, if_neg (by omega), if_neg (by omega), if_neg (by omega), if_neg (by omega),
      if_neg (by omega), if_pos rfl]
  · rw [hcut, if_neg (by omega), if_neg (by omega), if_neg (by omega), if_neg (by omega),
      if_neg (by omega), if_neg (by omega), if_pos rfl]
  · rw [hcut, if_neg (by omega), if_neg (by omega), if_pos rfl]

/-- The words of the other segments stay, the left neighbour of the next one apart. -/
theorem Rep.cut_other {c : ℕ} {u : Seg} (hc : T c = some u) (hca : c ≠ a) {o : ℕ} (ho : o < u.hoff)
    (hcr : c = s.right → o ≠ 0) : Heap.cut m a k (c + o) = m (c + o) := by
  have hbnd := h.layout.bound ha
  have h₁ := h.layout.sep hc ha hca
  have h₂ := h.layout.bound hc
  refine h.cut_outside ha hk (by omega) fun e => ?_
  by_cases hcs : c = s.right
  · exact hcr hcs (by omega)
  · exact h.layout.ne_right hc ho hcs ha e

/-- A segment is cut: the rest of it is a free segment, not yet in the free ring. -/
theorem Rep.not_mem_cut : a + s.hoff + k ∉ R := by
  intro hmem
  obtain ⟨u, hu, -⟩ := h.mem_ring _ hmem
  rw [h.layout.wf.split_fresh (by decide) ha hk] at hu
  cases hu

theorem Rep.cut (h4 : 4 ∣ a + s.hoff + k) : Rep header B (Heap.cut m a k) (T.split 24 a s k) R := by
  have hwf := h.layout.wf
  have hbnd := h.layout.bound ha
  have hsplit := hwf.split_apply (by decide) ha hk
  refine h.of_links ?layout ?seg ?header ?links ?ring ?used
  case layout =>
    refine h.layout.of_wf (hwf.split (by decide) ha hk) fun c u hc => ?_
    rw [hsplit] at hc
    split_ifs at hc with h₁ h₂ h₃
    · exact h₁ ▸ h.layout.aligned ha
    · exact h₂ ▸ h4
    · obtain ⟨t, ht, -⟩ := Option.map_eq_some_iff.1 hc
      exact h.layout.aligned ht
    · exact h.layout.aligned hc
  case seg =>
    -- The segment is the one cut, the new one, the one after both, or another.
    intro c u hc
    rw [hsplit] at hc
    split_ifs at hc with h₁ h₂ h₃
    · obtain rfl := Option.some.inj hc
      rw [h₁]
      exact h.cut_self ha hk
    · obtain rfl := Option.some.inj hc
      rw [h₂]
      exact h.cut_new ha hk
    · obtain ⟨t, ht, rfl⟩ := Option.map_eq_some_iff.1 hc
      subst h₃
      exact (h.seg ht).setLeft (h.layout.bound ht).2.1
        (h.cut_right ha hk (hwf.right_pos ht)) fun o ho h₀ =>
          h.cut_other ha hk ht h₁ ho fun _ => h₀
    · exact (h.seg hc).congr (h.layout.bound hc).2.1 fun o ho _ _ =>
        h.cut_other ha hk hc h₁ ho fun e => absurd e h₃
  case header =>
    have h₁ := h.layout.header_apart ha
    have h₂ := h.layout.header_ne_right ha
    exact ⟨h.cut_outside ha hk (by omega) h₂.1, h.cut_outside ha hk (by omega) h₂.2⟩
  case links =>
    intro c u v hc _ o ho
    by_cases hca : c = a
    · subst hca
      exact h.cut_inside ha hk (by omega) (by omega) (by omega)
    · have := h.layout.bound hc
      exact h.cut_other ha hk hc hca (by omega) (by omega)
  case ring =>
    intro c hc
    obtain ⟨u, hu, huf⟩ := h.mem_ring c hc
    by_cases hca : c = a
    · subst hca
      rw [ha] at hu
      obtain rfl := Option.some.inj hu
      exact ⟨_, hwf.split_self (by decide) ha hk, huf⟩
    · refine ⟨_, hwf.split_keep (by decide) ha hk hu hca, ?_⟩
      split_ifs <;> exact huf
  case used =>
    intro c u hc hu
    rw [hsplit] at hc
    split_ifs at hc with h₁ h₂ h₃
    · obtain rfl := Option.some.inj hc
      exact ⟨s, h₁ ▸ ha, hu⟩
    · obtain rfl := Option.some.inj hc
      cases hu
    · obtain ⟨t, ht, rfl⟩ := Option.map_eq_some_iff.1 hc
      exact ⟨t, ht, hu⟩
    · exact ⟨u, hc, hu⟩

end Cut

/-! ## Merging -/

section Merge

variable (h : Rep header B m T R) {t : Seg} (ha : T a = some s) (ht : T s.right = some t)

include h ha ht

/-- The stores of `merge`: the descriptor of the segment gone is cleared, the other one has its
    right neighbour, and their lengths together. -/
theorem Rep.merge_apply (x : ℕ) :
    Heap.merge m a s.right x =
      if s.right ≤ x ∧ x < s.right + t.hoff then 0
      else if x = a + 16 then s.avail + t.avail + t.hoff
      else if t.right ≠ 0 ∧ x = t.right then a
      else if x = a + 4 then t.right
      else m x := by
  obtain ⟨hpos, hoff, hlt⟩ := h.layout.bound ha
  obtain ⟨hpos', hoff', hlt'⟩ := h.layout.bound ht
  have hend := h.layout.right_eq ha
  have hend' := h.layout.right_eq ht
  have w₁ : word (a + 4) = a + 4 := word_eq (by omega)
  have w₂ : word (a + 16) = a + 16 := word_eq (by omega)
  have w₃ : word (s.right + 4) = s.right + 4 := word_eq (by omega)
  have w₄ : word (s.right + 16) = s.right + 16 := word_eq (by omega)
  have w₅ : word (s.right + 20) = s.right + 20 := word_eq (by omega)
  -- The memory once the right neighbour is set, and once both neighbours are.
  set m₁ := m.setRight a t.right with hm₁
  set m₂ : Mem := if t.right ≠ 0 then m₁.setLeft t.right a else m₁ with hm₂
  have hm₂_apply : ∀ z, m₂ z = if t.right ≠ 0 ∧ z = t.right then a
      else if z = a + 4 then t.right else m z := by
    intro z
    rw [hm₂, hm₁]
    by_cases hr : t.right = 0 <;> simp [hr, setRight, setLeft, w₁]
  have hright : m₁.right s.right = t.right := by
    rw [Mem.right, w₃, hm₁, setRight, write_apply, w₁, if_neg (by omega), (h.seg ht).right]
  have havail : m₂.availableSize a = s.avail := by
    rw [Mem.availableSize, w₂, hm₂_apply, if_neg (by omega), if_neg (by omega), (h.seg ha).avail]
  have havail' : m₂.availableSize s.right = t.avail := by
    rw [Mem.availableSize, w₄, hm₂_apply, if_neg (by omega), if_neg (by omega), (h.seg ht).avail]
  have hoff₂ : m₂.headerOffset s.right = t.hoff := by
    rw [Mem.headerOffset, w₅, hm₂_apply, if_neg (by omega), if_neg (by omega), (h.seg ht).hoff]
  have hsum : word (s.avail + (t.avail + t.hoff)) = s.avail + t.avail + t.hoff := by
    rw [word_eq (by omega), Nat.add_assoc]
  have hoff₃ : (m₂.setAvailableSize a (s.avail + t.avail + t.hoff)).headerOffset s.right =
      t.hoff := by
    rw [Mem.headerOffset, setAvailableSize, w₂, w₅, write_apply, if_neg (by omega), ← w₅]
    exact hoff₂
  have hm : Heap.merge m a s.right =
      (m₂.setAvailableSize a (s.avail + t.avail + t.hoff)).zeroBlock s.right t.hoff := by
    simp only [Heap.merge, h.right_eq ht, ← hm₁, hright, ← hm₂, havail, havail', hoff₂, hsum, hoff₃]
  rw [hm, zeroBlock, setAvailableSize, w₂, write_apply, hm₂_apply]

/-- Outside of both segments, only the left neighbour of the next one changes. -/
theorem Rep.merge_outside {x : ℕ} (hx : x < a ∨ s.right + t.hoff + t.avail ≤ x)
    (hxr : x ≠ t.right) : Heap.merge m a s.right x = m x := by
  have hend := h.layout.right_eq ha
  have hbnd := h.layout.bound ha
  have hbnd' := h.layout.bound ht
  rw [h.merge_apply ha ht]
  repeat rw [if_neg (by omega)]

/-- The words of its header which the segment grown keeps. -/
theorem Rep.merge_inside {o : ℕ} (ho : o < s.hoff) (h₄ : o ≠ 4) (h₁₆ : o ≠ 16) :
    Heap.merge m a s.right (a + o) = m (a + o) := by
  have hend := h.layout.right_eq ha
  have hend' := h.layout.right_eq ht
  have hbnd := h.layout.bound ha
  have hbnd' := h.layout.bound ht
  rw [h.merge_apply ha ht]
  repeat rw [if_neg (by omega)]

theorem Rep.merge_right (hr : t.right ≠ 0) : Heap.merge m a s.right t.right = a := by
  have hend := h.layout.right_eq ha
  have hend' := h.layout.right_eq ht
  have hbnd := h.layout.bound ha
  have hbnd' := h.layout.bound ht
  rw [h.merge_apply ha ht, if_neg (by omega), if_neg (by omega), if_pos ⟨hr, rfl⟩]

theorem Rep.merge_self : SegAt (Heap.merge m a s.right) a
    { s with right := t.right, avail := s.avail + t.avail + t.hoff } := by
  have hend := h.layout.right_eq ha
  have hend' := h.layout.right_eq ht
  have hbnd := h.layout.bound ha
  have hbnd' := h.layout.bound ht
  have hseg := h.seg ha
  have hm := h.merge_apply ha ht
  have hin := fun o => h.merge_inside (o := o) ha ht
  refine ⟨(hin 0 (by omega) (by omega) (by omega)).trans hseg.left, ?_, ?_,
    (hin 20 (by omega) (by omega) (by omega)).trans hseg.hoff, ?_⟩
  · rw [hm, if_neg (by omega), if_neg (by omega), if_neg (by omega), if_pos rfl]
  · rw [hm, if_neg (by omega), if_pos rfl]
  · have := hin (s.hoff - 4) (by omega) (by omega) (by omega)
    rw [← Nat.add_sub_assoc (by omega)] at this
    exact this.trans hseg.tag

/-- The words of the other segments stay, the left neighbour of the next one apart. -/
theorem Rep.merge_other {c : ℕ} {u : Seg} (hc : T c = some u) (hca : c ≠ a) (hcy : c ≠ s.right)
    {o : ℕ} (ho : o < u.hoff) (hcr : c = t.right → o ≠ 0) :
    Heap.merge m a s.right (c + o) = m (c + o) := by
  have hend := h.layout.right_eq ha
  have hbnd := h.layout.bound ha
  have hbnd' := h.layout.bound ht
  have h₁ := h.layout.sep hc ha hca
  have h₂ := h.layout.sep hc ht hcy
  have h₃ := h.layout.bound hc
  refine h.merge_outside ha ht (by omega) fun e => ?_
  by_cases hcs : c = t.right
  · exact hcr hcs (by omega)
  · exact h.layout.ne_right hc ho hcs ht e

/-- A segment takes over its right neighbour, which is not in the free ring. -/
theorem Rep.merge (hy : s.right ∉ R) :
    Rep header B (Heap.merge m a s.right) (T.absorb a s t) R := by
  have hwf := h.layout.wf
  have hbnd := h.layout.bound ha
  have happ := hwf.absorb_apply (by decide) ha ht
  refine h.of_links ?layout ?seg ?header ?links ?ring ?used
  case layout =>
    refine h.layout.of_wf (hwf.absorb (by decide) ha ht) fun c u hc => ?_
    rw [happ] at hc
    split_ifs at hc with h₁ h₂ h₃
    · exact h₁ ▸ h.layout.aligned ha
    · obtain ⟨v, hv, -⟩ := Option.map_eq_some_iff.1 hc
      exact h.layout.aligned hv
    · exact h.layout.aligned hc
  case seg =>
    -- The segment is the one that grows, the one after both, or another.
    intro c u hc
    rw [happ] at hc
    split_ifs at hc with h₁ h₂ h₃
    · obtain rfl := Option.some.inj hc
      rw [h₁]
      exact h.merge_self ha ht
    · obtain ⟨v, hv, rfl⟩ := Option.map_eq_some_iff.1 hc
      subst h₃
      exact (h.seg hv).setLeft (h.layout.bound hv).2.1
        (h.merge_right ha ht (hwf.right_pos hv)) fun o ho h₀ =>
          h.merge_other ha ht hv h₁ h₂ ho fun _ => h₀
    · exact (h.seg hc).congr (h.layout.bound hc).2.1 fun o ho _ _ =>
        h.merge_other ha ht hc h₁ h₂ ho fun e => absurd e h₃
  case header =>
    have h₁ := h.layout.header_apart ha
    have h₂ := h.layout.header_apart ht
    have h₃ := h.layout.header_ne_right ht
    have hend := h.layout.right_eq ha
    have hbnd' := h.layout.bound ht
    exact ⟨h.merge_outside ha ht (by omega) h₃.1, h.merge_outside ha ht (by omega) h₃.2⟩
  case links =>
    intro c u v hc hv o ho
    have hcy : c ≠ s.right := by
      rintro rfl
      rw [happ, if_neg (hwf.right_ne (by decide) ha), if_pos rfl] at hv
      cases hv
    by_cases hca : c = a
    · subst hca
      exact h.merge_inside ha ht (by omega) (by omega) (by omega)
    · have := h.layout.bound hc
      exact h.merge_other ha ht hc hca hcy (by omega) (by omega)
  case ring =>
    intro c hc
    obtain ⟨u, hu, huf⟩ := h.mem_ring c hc
    by_cases hca : c = a
    · subst hca
      rw [ha] at hu
      obtain rfl := Option.some.inj hu
      exact ⟨_, hwf.absorb_self (by decide) ha ht, huf⟩
    · refine ⟨_, hwf.absorb_keep (by decide) ha ht hu hca (by rintro rfl; exact hy hc), ?_⟩
      split_ifs <;> exact huf
  case used =>
    intro c u hc hu
    rw [happ] at hc
    split_ifs at hc with h₁ h₂ h₃
    · obtain rfl := Option.some.inj hc
      exact ⟨s, h₁ ▸ ha, hu⟩
    · obtain ⟨v, hv, rfl⟩ := Option.map_eq_some_iff.1 hc
      exact ⟨v, hv, hu⟩
    · exact ⟨u, hc, hu⟩

end Merge

/-! ## Releasing a segment, and adding a block -/

/-- A segment out of the free ring is replaced by one of the same extent, whose descriptor has been
    stored over its own. -/
theorem Rep.replace {s' : Seg} (h : Rep header B m T R) (ha : T a = some s) (haR : a ∉ R)
    (hwf : Tiling.Wf 24 B (Function.update T a (some s'))) (hseg : SegAt m' a s')
    (hlinks : m' (a + 8) = m (a + 8) ∧ m' (a + 12) = m (a + 12))
    (hframe : ∀ x, x < a ∨ a + s.hoff + s.avail ≤ x → m' x = m x)
    (hfree : s'.free = false → s.free = false) :
    Rep header B m' (Function.update T a (some s')) R := by
  have happ : ∀ c, Function.update T a (some s') c = if c = a then some s' else T c :=
    fun c => Function.update_apply ..
  -- No other segment meets the words that were written.
  have hother : ∀ {c u}, T c = some u → c ≠ a → ∀ o < u.hoff, m' (c + o) = m (c + o) := by
    intro c u hc hca o ho
    have := h.layout.sep hc ha hca
    exact hframe _ (by omega)
  refine h.of_links ?layout ?seg ?header ?links ?ring ?used
  case layout =>
    refine h.layout.of_wf hwf fun c u hc => ?_
    rw [happ] at hc
    split_ifs at hc with hca
    exacts [hca ▸ h.layout.aligned ha, h.layout.aligned hc]
  case seg =>
    intro c u hc
    rw [happ] at hc
    split_ifs at hc with hca
    · obtain rfl := Option.some.inj hc
      exact hca ▸ hseg
    · exact (h.seg hc).congr (h.layout.bound hc).2.1 fun o ho _ _ => hother hc hca o ho
  case header =>
    have := h.layout.header_apart ha
    exact ⟨hframe _ (by omega), hframe _ (by omega)⟩
  case links =>
    intro c u v hc _ o ho
    have hoff := (h.layout.bound hc).2.1
    by_cases hca : c = a
    · subst hca
      rcases ho with rfl | rfl
      exacts [hlinks.1, hlinks.2]
    · exact hother hc hca o (by omega)
  case ring =>
    intro c hc
    rw [happ, if_neg (by rintro rfl; exact haR hc)]
    exact h.mem_ring c hc
  case used =>
    intro c u hc hu
    rw [happ] at hc
    split_ifs at hc with hca
    · obtain rfl := Option.some.inj hc
      exact ⟨s, hca ▸ ha, hfree hu⟩
    · exact ⟨u, hc, hu⟩

/-- The header of a segment in use is normalised: it counts as free, but is not yet in the free
    ring. -/
theorem Rep.normalise (h : Rep header B m T R) (ha : T a = some s) (hu : s.free = false) :
    Rep header B (if m.headerOffset a > sizeofHeapSegmentDesc then
      (m.setAvailableSize a (word (m.availableSize a +
        wordSub (m.headerOffset a) sizeofHeapSegmentDesc))).setHeaderOffset a sizeofHeapSegmentDesc
      else m) (T.setFree 24 a s true) R := by
  obtain ⟨hpos, hoff, hlt⟩ := h.layout.bound ha
  have hseg := h.seg ha
  have hsub : wordSub s.hoff 24 = s.hoff - 24 := wordSub_eq (by omega) (by omega)
  have hsum : word (s.avail + (s.hoff - 24)) = s.avail + s.hoff - 24 := by
    rw [word_eq (by omega)]
    omega
  have w₁ : word (a + 16) = a + 16 := word_eq (by omega)
  have w₂ : word (a + 20) = a + 20 := word_eq (by omega)
  rw [h.headerOffset_eq ha, h.availableSize_eq ha, sizeofHeapSegmentDesc, hsub, hsum]
  -- Only the lengths of the segment are stored, its header already being normal otherwise.
  set m₁ : Mem := if s.hoff > 24 then (m.setAvailableSize a (s.avail + s.hoff - 24)).setHeaderOffset
    a 24 else m with hm₁
  have hself : m₁ (a + 16) = s.avail + s.hoff - 24 ∧ m₁ (a + 20) = 24 := by
    rw [hm₁]
    split_ifs with hgt
    · simp [setAvailableSize, setHeaderOffset, w₁, w₂]
    · rw [hseg.avail, hseg.hoff]
      omega
  have hframe : ∀ x, x ≠ a + 16 → x ≠ a + 20 → m₁ x = m x := by
    intro x h₁ h₂
    rw [hm₁]
    split_ifs
    · simp [setAvailableSize, setHeaderOffset, w₁, w₂, h₁, h₂]
    · rfl
  exact h.replace ha (h.not_mem_of_used ha hu) (h.layout.wf.setFree ha true)
    ⟨(hframe _ (by omega) (by omega)).trans hseg.left,
      (hframe _ (by omega) (by omega)).trans hseg.right, hself.1, hself.2, hself.2⟩
    ⟨hframe _ (by omega) (by omega), hframe _ (by omega) (by omega)⟩
    (fun x hx => hframe x (by omega) (by omega)) (by simp)

/-- A segment in use becomes free, and enters the free ring. -/
theorem Rep.release (h : Rep header B m T R) (ha : T a = some s) (hu : s.free = false) :
    ∃ R', (∀ x, x ∈ R' ↔ x = a ∨ x ∈ R) ∧
      Rep header B (Heap.release header m a) (T.setFree 24 a s true) R' :=
  (h.normalise ha hu).link (Function.update_self ..) rfl (h.not_mem_of_used ha hu)

/-- The descriptor of the only segment of a new block is stored. -/
theorem Rep.addSeg (h : Rep header B m T R) {l r : ℕ} (hl : 0 < l) (hlr : l + 24 ≤ r)
    (hr : r < 2 ^ 32) (h4 : 4 ∣ l) (hB : ∀ b ∈ B, b.2 ≤ l ∨ r ≤ b.1)
    (hhdr : header + 8 ≤ l ∨ r ≤ header) :
    Rep header (insert (l, r) B) ((((m.setRight l 0).setLeft l 0).setHeaderOffset l
      sizeofHeapSegmentDesc).setAvailableSize l (wordSub (wordSub r l) sizeofHeapSegmentDesc))
      (T.addSeg 24 l r) R := by
  have hwf := h.layout.wf.addSeg (by decide) hl hlr hB
  have hsub : wordSub (wordSub r l) sizeofHeapSegmentDesc = r - l - 24 := by
    rw [sizeofHeapSegmentDesc, wordSub_eq (a := r) (by omega) (by omega),
      wordSub_eq (by omega) (by omega)]
  have w₁ : word (l + 4) = l + 4 := word_eq (by omega)
  have w₂ : word (l + 16) = l + 16 := word_eq (by omega)
  have w₃ : word (l + 20) = l + 20 := word_eq (by omega)
  rw [hsub]
  set m₁ :=
    (((m.setRight l 0).setLeft l 0).setHeaderOffset l sizeofHeapSegmentDesc).setAvailableSize
    l (r - l - 24) with hm₁
  have hm₁_apply : ∀ x, m₁ x = if x = l + 16 then r - l - 24 else if x = l + 20 then 24
      else if x = l then 0 else if x = l + 4 then 0 else m x := by
    intro x
    simp only [hm₁, setRight, setLeft, setHeaderOffset, setAvailableSize, w₁, w₂, w₃, write_apply,
      sizeofHeapSegmentDesc]
  have hframe : ∀ x, x < l ∨ r ≤ x → m₁ x = m x := by
    intro x hx
    rw [hm₁_apply]
    repeat rw [if_neg (by omega)]
  have happ : ∀ c, T.addSeg 24 l r c =
      if c = l then some ⟨l, r, 0, 0, 24, r - l - 24, true⟩ else T c :=
    fun c => Function.update_apply ..
  have hout : ∀ {c u}, T c = some u → ∀ o < u.hoff, m₁ (c + o) = m (c + o) := by
    intro c u hc o ho
    have h₁ := h.layout.wf.apart hB hc
    rw [Seg.len] at h₁
    exact hframe _ (by omega)
  refine h.of_links ?layout ?seg ?header ?links ?ring ?used
  case layout =>
    refine ⟨hwf, ?_, ?_, h.layout.header_pos, h.layout.header_lt, fun c u hc => ?_⟩
    · rintro b (rfl | hb)
      exacts [hr, h.layout.lt b hb]
    · rintro b (rfl | hb)
      exacts [hhdr, h.layout.apart b hb]
    · rw [happ] at hc
      split_ifs at hc with hcl
      exacts [hcl ▸ h4, h.layout.aligned hc]
  case seg =>
    intro c u hc
    rw [happ] at hc
    split_ifs at hc with hcl
    · subst hcl
      obtain rfl := Option.some.inj hc
      have h₂₀ : m₁ (c + 20) = 24 := by rw [hm₁_apply, if_neg (by omega), if_pos rfl]
      refine ⟨?_, ?_, ?_, h₂₀, h₂₀⟩
      · rw [hm₁_apply, if_neg (by omega), if_neg (by omega), if_pos rfl]
      · rw [hm₁_apply, if_neg (by omega), if_neg (by omega), if_neg (by omega), if_pos rfl]
      · rw [hm₁_apply, if_pos rfl]
    · exact (h.seg hc).congr (h.layout.bound hc).2.1 fun o ho _ _ => hout hc o ho
  case header => exact ⟨hframe _ (by omega), hframe _ (by omega)⟩
  case links =>
    intro c u v hc _ o ho
    have := h.layout.bound hc
    exact hout hc o (by omega)
  case ring =>
    intro c hc
    -- A segment that was there is not at the address of the new one.
    obtain ⟨u, hu, huf⟩ := h.mem_ring c hc
    have hfresh := h.layout.wf.addSeg_fresh (by decide) hlr hB
    refine ⟨u, ?_, huf⟩
    rw [happ, if_neg (by rintro rfl; rw [hfresh] at hu; cases hu), hu]
  case used =>
    intro c u hc hu
    rw [happ] at hc
    split_ifs at hc with hcl
    · obtain rfl := Option.some.inj hc
      cases hu
    · exact ⟨u, hc, hu⟩

/-- The free ring of a heap without blocks. -/
theorem Rep.init (hpos : 0 < header) (hlt : header + 4 < 2 ^ 32) :
    Rep header ∅ (m.initRingDoubleList header) (fun _ => none) [] := by
  have hN : Nodes {header} := by
    rintro p rfl
    refine ⟨hpos, hlt, fun e => ?_⟩
    rw [Set.mem_singleton_iff] at e
    omega
  have hnone : ∀ {c : ℕ} {u : Seg} {P : Prop}, (fun _ => none : Tiling) c = some u → P := by
    intro c u P hc
    cases hc
  refine ⟨⟨⟨rfl, ?_, ?_, ?_, ?_, ?_, ?_, ?_, ?_, ?_, ?_⟩, ?_, ?_, hpos, hlt, ?_⟩, ?_,
    (initRingDoubleList_spec hN).1, ?_, ?_⟩
  all_goals first | exact fun _ _ hc => hnone hc | simp

end Heap

end DemoOs
