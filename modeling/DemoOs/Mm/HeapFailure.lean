import DemoOs.Mm.HeapAligned

/-!
# The failure of an aligned allocation

`allocate(word_t, word_t)` assigns the address it returns in every turn of its loop, so after a
failure it returns the aligned address in the last segment of the free ring, which is null only when
it overflows. The callers test for null.
-/

namespace DemoOs

namespace Heap

open Mem

variable {header r : ℕ} {B : Set (ℕ × ℕ)} {T : Tiling} {m : Mem} {h : Heap} {R : List ℕ} {a : ℕ}
  {s : Seg}

/-! ## What a segment taken at the null address leaves behind -/

/-- The segment entering the free ring is next to the header. -/
theorem link_header (header : ℕ) (m : Mem) (node : ℕ) :
    link header m node header = doubleList node ∨
      link header m node (word (header + 4)) = doubleList node := by
  rw [link]
  split_ifs
  · right
    simp only [addNodeToRingDoubleListTail, setNext, setPrev, write_apply]
    split_ifs <;> rfl
  · left
    simp only [addNodeToRingDoubleListHeader, setNext, setPrev, write_apply]
    split_ifs <;> rfl

/-- What `link` stores elsewhere than in the header and in the links of the segment is the address
    of these links. -/
theorem link_keep {node x : ℕ} (h₁ : x ≠ header) (h₂ : x ≠ word (header + 4))
    (h₃ : x ≠ doubleList node)
    (h₄ : x ≠ word (doubleList node + 4)) :
    link header m node x = m x ∨ link header m node x = doubleList node := by
  rw [link]
  split_ifs
  · simp only [addNodeToRingDoubleListTail, setNext, setPrev, write_apply]
    grind
  · simp only [addNodeToRingDoubleListHeader, setNext, setPrev, write_apply]
    grind

/-- A segment cut where the payload of `node` would start at the null address. -/
theorem cut_newNode {node n : ℕ} (hnull : word (node + m.headerOffset node) = 0)
    (hn : n + 24 < 2 ^ 32) :
    cut m node n n = node ∨ cut m node n n = n := by
  have w₀ : word (word (node + m.headerOffset node) + n) = n := by
    rw [hnull, Nat.zero_add, word_eq (by omega)]
  have w₁ : word (n + 4) = n + 4 := word_eq (by omega)
  have w₂ : word (n + 16) = n + 16 := word_eq (by omega)
  have w₃ : word (n + 20) = n + 20 := word_eq (by omega)
  simp only [cut, w₀]
  simp only [setAvailableSize, setHeaderOffset, setLeft, setRight, Mem.right, w₁, w₂, w₃,
    write_apply, ite_apply]
  grind

/-- What is cut off before a segment at the null address is its left neighbour's. -/
theorem cutFront_right {b l : ℕ} (hb : a + 24 < b) (hb' : b + 24 ≤ 2 ^ 32) :
    setPayload (Heap.cutFront m a b l) b 0 r (a + 4) = b := by
  have w₁ : word (a + 4) = a + 4 := word_eq (by omega)
  have w₂ : word (a + 16) = a + 16 := word_eq (by omega)
  have w₃ : word (b + 4) = b + 4 := word_eq (by omega)
  have w₄ : word (b + 8) = b + 8 := word_eq (by omega)
  have w₅ : word (b + 8 + 4) = b + 12 := word_eq (by omega)
  have w₆ : word (b + 16) = b + 16 := word_eq (by omega)
  have w₇ : word (b + 20) = b + 20 := word_eq (by omega)
  have w₈ : wordSub 0 4 = 2 ^ 32 - 4 := by decide
  simp only [setPayload, cutFront, doubleList, w₄, w₈]
  simp only [setAvailableSize, setHeaderOffset, setLeft, setRight, setPrev, setNext,
    Mem.right, w₁, w₂, w₃, w₅, w₆, w₇, write_apply, ite_apply]
  grind

theorem setPayload_headerOffset (m : Mem) (node r avail : ℕ) :
    (setPayload m node r avail).headerOffset node = wordSub r node := by
  simp only [setPayload, setHeaderOffset, Mem.headerOffset, write_apply, if_true]
  exact ite_self _

theorem wordSub_null {c : ℕ} (hpos : 0 < c) (hlt : c < 2 ^ 32) :
    word (c + wordSub 0 c) = 0 := by
  have h : wordSub 0 c = 2 ^ 32 - c := by rw [wordSub, Nat.zero_add, word_eq (by omega)]
  rw [h, Nat.add_sub_cancel' hlt.le]
  exact Nat.mod_self _

/-- The neighbours of the header in a free ring which is not empty. -/
theorem Rep.header_links (hrep : Rep header B m T R) (hR : R ≠ []) :
    (∃ b ∈ R, m header = b + 8) ∧ ∃ b ∈ R, m (word (header + 4)) = b + 8 := by
  have hring := hrep.ring
  constructor
  · cases R with
    | nil => exact absurd rfl hR
    | cons b R => exact ⟨b, List.mem_cons_self, (ptr_eq_some.1 hring.linked_cons_cons.1).1⟩
  · rcases List.eq_nil_or_concat R with rfl | ⟨R, b, rfl⟩
    · exact absurd rfl hR
    · rw [List.concat_eq_append, List.map_append, List.map_cons, List.map_nil] at hring
      exact ⟨b, by simp, (ptr_eq_some.1 hring.linked_last.2).1⟩

/-- The null address is the aligned one in a free segment: taking the segment changes the heap. -/
theorem Rep.takeAligned_null_ne (hrep : Rep header B m T R) (ha : T a = some s) (hf : s.free)
    (haR : a ∈ R) {n : ℕ} (hn : n ≤ a + 24 + s.avail) :
    Heap.takeAligned header m (a + 8) 0 (a + 24 + s.avail) n ≠ m := by
  intro hsame
  have hbnd := hrep.layout.bound ha
  have hoff := hrep.layout.wf.free_header ha hf
  have hend : wordSub (a + 24 + s.avail) n = a + 24 + s.avail - n := wordSub_eq hn (by omega)
  have hn₀ : word (0 + n) = n := by rw [Nat.zero_add, word_eq (by omega)]
  have hnew : alignDown (wordSub 0 sizeofHeapSegmentDesc) 4 = 2 ^ 32 - 24 := by decide
  have hleft : payloadAddr m a = a + 24 := by rw [hrep.payloadAddr_eq ha, hoff]
  -- The segment to be used, at the end of the address space or the one taken.
  obtain ⟨m₁, c, hfront, hc⟩ : ∃ m₁ c, takeFront m (a + 8) 0 = (m₁, c) ∧
      (c = 2 ^ 32 - 24 ∧ Heap.setPayload m₁ c 0 (a + 24 + s.avail) (a + 4) = c ∨ c = a) := by
    rw [takeFront_eq (hrep.layout.listEntry_eq ha) hleft hnew]
    split_ifs with hgt
    · exact ⟨_, _, rfl, .inl ⟨rfl, cutFront_right hgt (by omega)⟩⟩
    · exact ⟨_, _, rfl, .inr rfl⟩
  rw [takeAligned_eq hfront hend hn₀, sizeofHeapSegmentDesc] at hsame
  split_ifs at hsame with hgt
  · -- The segment entering the free ring was there before, so it is no part of the one taken.
    have hdl : doubleList n = n + 8 := word_eq (by omega)
    have hdl' : word (doubleList n + 4) = n + 12 := by rw [hdl, word_eq (by omega)]
    have hwh : word (header + 4) = header + 4 := word_eq hrep.layout.header_lt
    have hnR : n ∈ R := by
      obtain ⟨⟨b, hb, hnext⟩, b', hb', hprev⟩ := hrep.header_links (List.ne_nil_of_mem haR)
      rcases link_header header (Heap.cut (Heap.setPayload m₁ c 0 (a + 24 + s.avail)) c n)
        n with hl | hl
      · rw [hsame, hnext, hdl] at hl
        exact Nat.add_right_cancel hl ▸ hb
      · rw [hsame, hprev, hdl] at hl
        exact Nat.add_right_cancel hl ▸ hb'
    obtain ⟨t, ht, -⟩ := hrep.mem_ring n hnR
    have hbnd' := hrep.layout.bound ht
    have hapart := hrep.layout.header_apart ht
    have hpos : 0 < c ∧ c < 2 ^ 32 := by omega
    have hnull : word (c + (Heap.setPayload m₁ c 0 (a + 24 + s.avail)).headerOffset c) = 0 := by
      rw [setPayload_headerOffset, wordSub_null hpos.1 hpos.2]
    -- But it has another left neighbour now.
    have hval : t.left = c ∨ t.left = n ∨ t.left = n + 8 := by
      have hkeep := @link_keep header (Heap.cut (Heap.setPayload m₁ c 0 (a + 24 + s.avail)) c n) n n
        (by omega) (by omega) (by omega) (by omega)
      rw [hsame, (hrep.seg ht).left, hdl] at hkeep
      have hcut := cut_newNode hnull (by omega : n + 24 < 2 ^ 32)
      omega
    by_cases h₀ : t.left = 0
    · omega
    · obtain ⟨u, hu, -, hlen, -⟩ := hrep.layout.wf.left_end ht h₀
      have hbnd'' := hrep.layout.bound hu
      rw [Seg.len] at hlen
      rcases hc with ⟨rfl, -⟩ | rfl
      · omega
      · have : t.left = c := by omega
        rw [this, ha] at hu
        obtain rfl := Option.some.inj hu
        omega
  · rcases hc with ⟨rfl, hc⟩ | rfl
    · -- Its left neighbour would be the one taken.
      rw [hsame] at hc
      have hright := hrep.layout.right_eq ha
      have hseg := (hrep.seg ha).right
      by_cases h₀ : s.right = 0
      · omega
      · obtain ⟨-, t, ht, -⟩ := hrep.layout.wf.right ha h₀
        have := hrep.layout.bound ht
        omega
    · have hsize : Heap.setPayload m₁ c 0 (c + 24 + s.avail) (c + 16) = c + 24 + s.avail := by
        have w₁ : word (c + 16) = c + 16 := word_eq (by omega)
        have w₂ : word (c + 20) = c + 20 := word_eq (by omega)
        have w₃ : wordSub 0 4 = 2 ^ 32 - 4 := by decide
        simp only [Heap.setPayload, setAvailableSize, setHeaderOffset, w₁, w₂, w₃, write_apply]
        rw [if_neg (by omega), if_neg (by omega), if_pos trivial]
      rw [hsame, (hrep.seg ha).avail] at hsize
      omega

/-! ## The report of a failure -/

/-- Some free segment has `n` bytes, rounded up to whole words, from a multiple of `2 ^ k` on. -/
def Available (st : State) (n k : ℕ) : Prop :=
  ∃ a size, FreeSeg st a size ∧
    ∃ r, 2 ^ k ∣ r ∧ a + sizeofHeapSegmentDesc ≤ r ∧
      r + wholeWords n ≤ a + sizeofHeapSegmentDesc + size

/-- What the callers of `allocate` rely on, it having returned `r` and left the heap `h`: the result
    is null exactly when no free segment can hold the block, and the heap is as before then. -/
structure ReportsFailure (st : State) (n k r : ℕ) (h : Heap) : Prop where
  null_iff : r = 0 ↔ ¬Available st n k
  unchanged : ¬Available st n k → h = st.heap

/-- The payload of `node` is so near the end of the address space that rounding its address up
    overflows. -/
def Overflows (m : Mem) (k node : ℕ) : Prop := 2 ^ 32 ≤ payloadAddr m node + (2 ^ k - 1)

theorem Rep.alignedAddr_eq_zero_iff (hrep : Rep header B m T R) (ha : T a = some s) {k : ℕ}
    (hk : k < 32) :
    alignedAddr m a (2 ^ k) = 0 ↔ Overflows m k a := by
  have hbnd := hrep.layout.bound ha
  have hpay := hrep.payloadAddr_eq ha
  rw [Overflows, alignedAddr]
  constructor
  · intro h₀
    by_contra hlt
    have := le_alignUp hk (Nat.lt_of_not_le hlt)
    omega
  · exact alignUp_eq_zero hk (by omega)

/-- A segment that can hold the block passes the test of the walk. -/
theorem Inv.suffices_of_holds (hinv : Inv header B h T R) (ha : T a = some s)
    (hf : s.free) {n k r : ℕ}
    (hn : n < 2 ^ 32) (hk : k < 32) (hdvd : 2 ^ k ∣ r) (hle : a + 24 ≤ r)
    (hend : r + wholeWords n ≤ a + 24 + s.avail) : Suffices h.mem n (2 ^ k) a := by
  have hbnd := hinv.rep.layout.bound ha
  have hoff := hinv.rep.layout.wf.free_header ha hf
  have hn' := le_wholeWords n
  have hup := alignUp_le hk hle hdvd (by omega)
  rw [Suffices, hinv.rep.alignedSize_eq ha, hoff, wordSub_eq (by omega) (by omega),
    alignUp_four n hn, if_pos (by omega)]
  omega

theorem foldl_last {α β : Type*} (f : α → β) (l : List α) (b : β) :
    l.foldl (fun _ a => f a) b = (l.getLast?.map f).getD b := by
  induction l using List.reverseRecOn with
  | nil => rfl
  | append_singleton l a _ => simp

/-- The result of the walk without a segment found is null when the address in the last segment
    overflows. -/
theorem Rep.last_eq_zero_iff (hrep : Rep header B m T R) {k : ℕ} (hk : k < 32) :
    R.foldl (fun _ a => alignedAddr m a (2 ^ k)) 0 = 0 ↔
      ∀ p, (R.map (· + 8)).getLast? = some p → Overflows m k (listEntry p) := by
  rw [foldl_last, List.getLast?_map]
  cases hlast : R.getLast? with
  | none => simp
  | some a =>
    obtain ⟨s, ha, -⟩ := hrep.mem_ring a (List.mem_of_getLast? hlast)
    rw [Option.map_some, Option.getD_some, hrep.alignedAddr_eq_zero_iff ha hk, Option.map_some]
    simp only [Option.some.injEq, forall_eq', hrep.layout.listEntry_eq ha]

/-- A segment taken at the null address is changed. -/
theorem Rep.allocateAligned_null_ne (hrep : Rep header B m T R) (ha : T a = some s) (hf : s.free)
    (haR : a ∈ R) {n al : ℕ} (hsuff : Suffices m n al a) (hnull : alignedAddr m a al = 0) :
    Heap.takeAligned header m (a + 8) (alignedAddr m a al) (alignedSize m a al) (alignUp n 4) ≠
      m := by
  have hbnd := hrep.layout.bound ha
  have hoff := hrep.layout.wf.free_header ha hf
  have hsize : alignedSize m a al = a + 24 + s.avail := by
    rw [hrep.alignedSize_eq ha, ← hrep.alignedAddr_eq ha, hnull, hoff,
      wordSub_eq (Nat.zero_le _) (by omega), Nat.sub_zero]
  rw [Suffices, hsize] at hsuff
  rw [hnull, hsize]
  exact hrep.takeAligned_null_ne ha hf haR hsuff

/-- **The failure of an aligned allocation is reported** exactly when a free segment can hold the
    block and the address of the first one which passes the test does not overflow, or no free
    segment passes the test, and the address in the last one overflows. -/
theorem reportsFailure_iff {st : State} {n k : ℕ} {ps : List ℕ} (hwf : WellFormed header st)
    (hring : st.heap.mem.linksOf.IsRing ↑(header :: ps)) (hn : n < 2 ^ 32) (hk : k < 32) :
    (∃ r h', allocateAligned header st.heap n (2 ^ k) = some (r, h') ∧ ReportsFailure st n k r h') ↔
      (Available st n k ∧
        ∀ p, ps.find? (fun p => Suffices st.heap.mem n (2 ^ k) (listEntry p)) = some p →
          ¬Overflows st.heap.mem k (listEntry p)) ∨
      (¬Available st n k ∧ (∀ p ∈ ps, ¬Suffices st.heap.mem n (2 ^ k) (listEntry p)) ∧
        ∀ p, ps.getLast? = some p → Overflows st.heap.mem k (listEntry p)) := by
  obtain ⟨T, R, hinv⟩ := hwf
  have hrep := hinv.rep
  have hentry : ∀ a ∈ R, listEntry (a + 8) = a := fun a ha => by
    obtain ⟨s, hs, -⟩ := hrep.mem_ring a ha
    exact hrep.layout.listEntry_eq hs
  rw [hrep.find?_suffices hring]
  obtain rfl := hrep.ring_eq hring
  cases hfind : R.find? fun a => Suffices st.heap.mem n (2 ^ k) a with
  | none =>
    -- No segment passes the test, and the loop ends at the header of the ring.
    have hnone : ∀ a ∈ R, ¬Suffices st.heap.mem n (2 ^ k) a := fun a ha => by
      simpa using List.find?_eq_none.1 hfind a ha
    have hno : ¬Available st n k := by
      rintro ⟨a, size, hfree, r, hdvd, hle, hend⟩
      obtain ⟨s, ha, hf, rfl⟩ := hinv.freeSeg_iff.1 hfree
      exact hnone a (hinv.all ha hf) (hinv.suffices_of_holds ha hf hn hk hdvd hle hend)
    obtain ⟨heq, -⟩ := hrep.allocateAligned_of_none hfind
    have hlast := hrep.last_eq_zero_iff hk
    constructor
    · rintro ⟨r, h', heq', hreport⟩
      rw [heq] at heq'
      obtain ⟨rfl, -⟩ := Prod.mk.inj (Option.some.inj heq')
      refine .inr ⟨hno, fun p hp => ?_, hlast.1 (hreport.null_iff.2 hno)⟩
      obtain ⟨a, ha, rfl⟩ := List.mem_map.1 hp
      rw [hentry a ha]
      exact hnone a ha
    · rintro (⟨hav, -⟩ | ⟨-, -, hover⟩)
      · exact absurd hav hno
      · exact ⟨_, _, heq, iff_of_true (hlast.2 hover) hno, fun _ => rfl⟩
  | some a =>
    obtain ⟨heq, -⟩ := hrep.allocateAligned_of_some hfind
    -- The segment `a` is the first one that passes the test.
    have haR := List.mem_of_find?_eq_some hfind
    obtain ⟨s, ha, hf⟩ := hrep.mem_ring a haR
    have hsuff : Suffices st.heap.mem n (2 ^ k) a := by simpa using List.find?_some hfind
    have hnull := hrep.alignedAddr_eq_zero_iff ha hk
    constructor
    · rintro ⟨r, h', heq', hreport⟩
      rw [heq] at heq'
      obtain ⟨rfl, rfl⟩ := Prod.mk.inj (Option.some.inj heq')
      by_cases hav : Available st n k
      · refine .inl ⟨hav, fun p hp hover => ?_⟩
        obtain rfl := Option.some.inj hp
        rw [hentry a haR] at hover
        exact hreport.null_iff.1 (hnull.2 hover) hav
      · -- The segment is taken at the null address, and the heap changes.
        have hmem := congrArg Heap.mem (hreport.unchanged hav)
        exact absurd hmem (hrep.allocateAligned_null_ne ha hf haR hsuff (hreport.null_iff.2 hav))
    · rintro (⟨hav, hover⟩ | ⟨-, hnone, -⟩)
      · have hover := hover _ rfl
        rw [hentry a haR, ← hnull] at hover
        exact ⟨_, _, heq, iff_of_false hover (not_not_intro hav), fun hno => absurd hav hno⟩
      · have := hnone _ (List.mem_map_of_mem haR)
        rw [hentry a haR] at this
        exact absurd hsuff this

/-- Eight bytes at a multiple of 16. -/
theorem reportsFailure_sixteen :
    ∃ r h', allocateAligned 64 (addHeapBlock 64 ⟨fun _ => 0, 0, 0⟩ 1000 2000) 8 (2 ^ 4) =
      some (r, h') ∧
      ReportsFailure ⟨addHeapBlock 64 ⟨fun _ => 0, 0, 0⟩ 1000 2000, [(1000, 2000)],
        []⟩ 8 4 r h' := by
  refine (reportsFailure_iff wellFormed_block isRing_block (by decide) (by decide)).2
    (.inl ⟨?_, ?_⟩)
  · refine ⟨1000, 976, ⟨(1000, 2000), by simp, .start, by decide, by decide⟩,
      1024, by decide, ?_, ?_⟩ <;>
    decide
  · intro p hp
    obtain rfl : p = 1008 := by
      have hmem := List.mem_of_find?_eq_some hp
      rwa [List.mem_singleton] at hmem
    rw [Overflows]
    decide +kernel

/-- More bytes are asked for than the only segment has: the address of its payload is returned. -/
theorem not_reportsFailure :
    WellFormed 64 ⟨addHeapBlock 64 ⟨fun _ => 0, 0, 0⟩ 1000 2000, [(1000, 2000)], []⟩ ∧
      ¬∃ r h', allocateAligned 64 (addHeapBlock 64 ⟨fun _ => 0, 0, 0⟩ 1000 2000) 2000 (2 ^ 4) =
        some (r, h') ∧
        ReportsFailure ⟨addHeapBlock 64 ⟨fun _ => 0, 0, 0⟩ 1000 2000, [(1000, 2000)],
          []⟩ 2000 4 r h' := by
  refine ⟨wellFormed_block, ?_⟩
  rintro ⟨r, h', heq, hreport⟩
  have hrun : (allocateAligned 64 (addHeapBlock 64 ⟨fun _ => 0, 0, 0⟩ 1000 2000) 2000 (2 ^ 4)).map
      Prod.fst = some 1024 := by
    decide +kernel
  rw [heq] at hrun
  obtain rfl := Option.some.inj hrun
  -- No segment of the block can hold it.
  obtain ⟨T, R, hinv⟩ := wellFormed_block
  refine absurd (hreport.null_iff.2 ?_) (by decide)
  rintro ⟨a, size, hfree, r, -, hle, hend⟩
  obtain ⟨s, ha, -, rfl⟩ := hinv.freeSeg_iff.1 hfree
  obtain ⟨hb, -, hlen⟩ := hinv.rep.layout.wf.block ha
  have hhi : s.hi = 2000 := (Prod.mk.inj (List.mem_singleton.1 hb)).2
  have hoff := hinv.rep.layout.wf.header ha
  have hwhole : wholeWords 2000 = 2000 := by decide
  rw [Seg.len] at hlen
  rw [sizeofHeapSegmentDesc] at hle hend
  omega

end Heap

end DemoOs
