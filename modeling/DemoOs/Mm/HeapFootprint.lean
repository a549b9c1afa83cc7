import DemoOs.Lib.Footprint
import DemoOs.Mm.HeapAligned

/-!
# The footprint of the heap

The operations of the heap read and write descriptors, the header of the free ring, and the payload
of the segment they cut, and no other addresses: these they spare.
-/

namespace DemoOs

namespace Mem

variable {D : Set ℕ} [DecidablePred (· ∈ D)] {m : Mem} {header x p q : ℕ}

theorem spares_write (hx : x ∉ D) (v : ℕ) : Spares D (fun m : Mem => m.write x v) m :=
  spares_update hx v

/-! ## The list operations as stores -/

theorem addNodeToRingDoubleListTail_eq (hq : m.prev header = q) (h₁ : word (x + 4) ≠ x)
    (h₂ : word (header + 4) ≠ word (x + 4)) : m.addNodeToRingDoubleListTail header x =
      (((m.write (word (x + 4)) q).write x header).write (word (header + 4)) x).write q x := by
  subst hq
  simp only [addNodeToRingDoubleListTail, setPrev, setNext]
  congr 1
  rw [prev, write_apply, if_neg h₂.symm, write_apply, if_neg h₁, write_apply, if_pos rfl]

theorem addNodeToRingDoubleListHeader_eq (hq : m.next header = q) (h₁ : x ≠ word (x + 4))
    (h₂ : x ≠ header) :
    m.addNodeToRingDoubleListHeader header x =
      (((m.write x q).write (word (x + 4)) header).write header x).write (word (q + 4)) x := by
  subst hq
  simp only [addNodeToRingDoubleListHeader, setPrev, setNext]
  congr 3
  rw [next, write_apply, if_neg h₂, write_apply, if_neg h₁, write_apply, if_pos rfl]

theorem delNodeFromRingDoubleList_eq (hp : m.prev x = p) (hq : m.next x = q)
    (h : word (x + 4) ≠ p) :
    m.delNodeFromRingDoubleList x =
      (((m.write p q).write (word (q + 4)) p).write (word (x + 4)) 0).write x 0 := by
  subst hq hp
  have hnext : (m.write (m.prev x) (m.next x)).next x = m.next x := by
    rw [next, write_apply]
    exact ite_self _
  have hprev : (m.write (m.prev x) (m.next x)).prev x = m.prev x := by
    rw [prev, write_apply, if_neg h]
    rfl
  simp only [delNodeFromRingDoubleList, setPrev, setNext, hnext, hprev]

/-- Four stores. -/
theorem spares_write_four {x₁ x₂ x₃ x₄ : ℕ} (h₁ : x₁ ∉ D) (h₂ : x₂ ∉ D) (h₃ : x₃ ∉ D) (h₄ : x₄ ∉ D)
    (v₁ v₂ v₃ v₄ : ℕ) :
    Spares D (fun m : Mem => (((m.write x₁ v₁).write x₂ v₂).write x₃ v₃).write x₄ v₄) m :=
  (((spares_write h₁ v₁).comp (spares_write h₂ v₂)).comp (spares_write h₃ v₃)).comp
    (spares_write h₄ v₄)

end Mem

namespace Heap

open Mem

variable {header : ℕ} {B : Set (ℕ × ℕ)} {T : Tiling} {m : Mem} {h : Heap} {R : List ℕ} {a : ℕ}
  {s : Seg} {D : Set ℕ} [DecidablePred (· ∈ D)]

/-- Neither the header of the free ring nor any descriptor is at the addresses `D`. -/
structure Apart (header : ℕ) (T : Tiling) (D : Set ℕ) : Prop where
  header : header ∉ D ∧ header + 4 ∉ D
  seg : ∀ ⦃a s⦄, T a = some s → ∀ o < s.hoff, a + o ∉ D

/-- The heap is the same whatever is at these addresses. -/
theorem Rep.piecewise (hrep : Rep header B m T R) (hD : Apart header T D) (g : Mem) :
    Rep header B (D.piecewise g m) T R := by
  have hseg : ∀ {c u}, T c = some u → ∀ o < u.hoff, D.piecewise g m (c + o) = m (c + o) :=
    fun hc o ho => Set.piecewise_eq_of_notMem _ _ _ (hD.seg hc o ho)
  refine hrep.of_links hrep.layout (fun c u hc => ?_) ⟨Set.piecewise_eq_of_notMem _ _ _ hD.header.1,
    Set.piecewise_eq_of_notMem _ _ _ hD.header.2⟩ (fun c u v hc _ o ho => ?_) hrep.mem_ring
    fun c u hc hu => ⟨u, hc, hu⟩
  · exact (hrep.seg hc).congr (hrep.layout.bound hc).2.1 fun o ho _ _ => hseg hc o ho
  · have := (hrep.layout.bound hc).2.1
    exact hseg hc o (by omega)

theorem Inv.piecewise (hinv : Inv header B h T R) (hD : Apart header T D) (g : Mem) :
    Inv header B { h with mem := D.piecewise g h.mem } T R :=
  { hinv with rep := hinv.rep.piecewise hD g }

/-! ## The free ring -/

omit [DecidablePred (· ∈ D)] in
theorem Rep.apart_ring (hrep : Rep header B m T R) (hD : Apart header T D) {p : ℕ}
    (hp : p ∈ ((header :: R.map (· + 8) : List ℕ) : Cycle ℕ)) : p ∉ D ∧ word (p + 4) ∉ D := by
  rcases List.mem_cons.1 (Cycle.mem_coe_iff.1 hp) with rfl | hp
  · rw [word_eq hrep.layout.header_lt]
    exact hD.header
  · obtain ⟨c, hc, rfl⟩ := List.mem_map.1 hp
    obtain ⟨u, hu, -⟩ := hrep.mem_ring c hc
    have := hrep.layout.bound hu
    rw [word_eq (by omega)]
    exact ⟨hD.seg hu 8 (by omega), hD.seg hu 12 (by omega)⟩

omit [DecidablePred (· ∈ D)] in
theorem Rep.apart_node (hrep : Rep header B m T R) (hD : Apart header T D) (ha : T a = some s) :
    a + 8 ∉ D ∧ word (a + 8 + 4) ∉ D := by
  have := hrep.layout.bound ha
  rw [word_eq (by omega)]
  exact ⟨hD.seg ha 8 (by omega), hD.seg ha 12 (by omega)⟩

/-- A segment enters the free ring. -/
theorem Rep.spares_link (hrep : Rep header B m T R) (hD : Apart header T D) (ha : T a = some s) :
    Spares D (fun m => Heap.link header m a) m := by
  have hbnd := hrep.layout.bound ha
  have happ := hrep.layout.header_apart ha
  have hwh := word_eq hrep.layout.header_lt
  have hw : word (a + 8 + 4) = a + 12 := word_eq (by omega)
  obtain ⟨ha₁, ha₂⟩ := hrep.apart_node hD ha
  obtain ⟨hh₁, hh₂⟩ := hrep.apart_ring hD (p := header) (by simp)
  obtain ⟨p, hp, hprev⟩ := hrep.ring.exists_prev (x := header) (by simp)
  obtain ⟨q, hq, hnext⟩ := hrep.ring.exists_next (x := header) (by simp)
  have hprev := (ptr_eq_some.1 hprev.2).1
  have hnext := (ptr_eq_some.1 hnext.1).1
  have hsize : ∀ g, Mem.availableSize (D.piecewise g m) a = s.avail := fun g =>
    (hrep.piecewise hD g).availableSize_eq ha
  by_cases hgt : s.avail > pageSize
  · refine (spares_write_four ha₂ ha₁ hh₂ (hrep.apart_ring hD hp).1 p header (a + 8)
      (a + 8)).congr fun g => ?_
    have hprev' : Mem.prev (D.piecewise g m) header = p :=
      (Set.piecewise_eq_of_notMem _ _ _ hh₂).trans hprev
    rw [Heap.link, hsize, if_pos hgt, hrep.layout.doubleList_eq ha,
      addNodeToRingDoubleListTail_eq hprev' (by omega) (by omega)]
  · refine (spares_write_four ha₁ ha₂ hh₁ (hrep.apart_ring hD hq).2 q header (a + 8)
      (a + 8)).congr fun g => ?_
    have hnext' : Mem.next (D.piecewise g m) header = q :=
      (Set.piecewise_eq_of_notMem _ _ _ hh₁).trans hnext
    rw [Heap.link, hsize, if_neg hgt, hrep.layout.doubleList_eq ha,
      addNodeToRingDoubleListHeader_eq hnext' (by omega) (by omega)]

/-- A segment leaves the free ring. -/
theorem Rep.spares_unlink (hrep : Rep header B m T R) (hD : Apart header T D) (ha : T a = some s)
    (haR : a ∈ R) : Spares D (fun m : Mem => m.delNodeFromRingDoubleList (a + 8)) m := by
  obtain ⟨ha₁, ha₂⟩ := hrep.apart_node hD ha
  have haC : a + 8 ∈ ((header :: R.map (· + 8) : List ℕ) : Cycle ℕ) := by simp [haR]
  obtain ⟨p, hp, hprev⟩ := hrep.ring.exists_prev haC
  obtain ⟨q, hq, hnext⟩ := hrep.ring.exists_next haC
  have hprev := (ptr_eq_some.1 hprev.2).1
  have hnext := (ptr_eq_some.1 hnext.1).1
  have hne : word (a + 8 + 4) ≠ p := by
    have hN := hrep.layout.nodes fun c hc => (hrep.mem_ring c hc).imp fun u hu => hu.1
    have haN := mem_ringNodes_of_mem (Cycle.mem_coe_iff.1 haC)
    rintro rfl
    rw [hN.prev_addr haN] at hp
    exact (hN _ haN).2.2 (mem_ringNodes_of_mem (Cycle.mem_coe_iff.1 hp))
  refine (spares_write_four (hrep.apart_ring hD hp).1
    (hrep.apart_ring hD hq).2 ha₂ ha₁ q p 0 0).congr
    fun g => ?_
  have hprev' : Mem.prev (D.piecewise g m) (a + 8) = p :=
    (Set.piecewise_eq_of_notMem _ _ _ ha₂).trans hprev
  have hnext' : Mem.next (D.piecewise g m) (a + 8) = q :=
    (Set.piecewise_eq_of_notMem _ _ _ ha₁).trans hnext
  exact delNodeFromRingDoubleList_eq hprev' hnext' hne

/-! ## Deallocation -/

omit [DecidablePred (· ∈ D)] in
/-- The segments of `T'` have no more descriptor than some of `T`. -/
theorem Apart.mono {T' : Tiling} (hD : Apart header T D)
    (h : ∀ ⦃c u⦄, T' c = some u → ∃ v, T c = some v ∧ u.hoff ≤ v.hoff) : Apart header T' D := by
  refine ⟨hD.header, fun c u hc o ho => ?_⟩
  obtain ⟨v, hv, hle⟩ := h hc
  exact hD.seg hv o (by omega)

omit [DecidablePred (· ∈ D)] in
/-- The right neighbour of a segment does not start in `D`. -/
theorem Apart.ne_right (hD : Apart header T D) (hlay : Layout header B T)
    (ha : T a = some s) {x : ℕ}
    (hx : x ∈ D) : ¬(s.right ≠ 0 ∧ x = s.right) := by
  rintro ⟨h₀, rfl⟩
  obtain ⟨-, t, ht, -⟩ := hlay.wf.right ha h₀
  have := hlay.bound ht
  exact hD.seg ht 0 (by omega) hx

theorem Rep.spares_merge (hrep : Rep header B m T R) (hD : Apart header T D) {t : Seg}
    (ha : T a = some s)
    (ht : T s.right = some t) : Spares D (fun m => Heap.merge m a s.right) m := by
  have hbnd := hrep.layout.bound ha
  refine spares_of_apply (fun g x hx => ?_) fun g x hx => ?_
  · have h₁ : ∀ {c u}, T c = some u → ∀ o < u.hoff, x ≠ c + o := fun hc o ho e =>
      hD.seg hc o ho (e ▸ hx)
    have h₂ : ¬(s.right ≤ x ∧ x < s.right + t.hoff) := fun h =>
      h₁ ht (x - s.right) (by omega) (by omega)
    rw [(hrep.piecewise hD g).merge_apply ha ht, if_neg h₂, if_neg (h₁ ha 16 (by omega)),
      if_neg (hD.ne_right hrep.layout ht hx), if_neg (h₁ ha 4 (by omega))]
  · rw [(hrep.piecewise hD g).merge_apply ha ht, hrep.merge_apply ha ht,
      Set.piecewise_eq_of_notMem _ _ _ hx]

theorem Inv.spares_mergeRight (hinv : Inv header B h T R) (hD : Apart header T D)
    (ha : T a = some s) :
    Spares D (fun m => Heap.mergeRight m a) h.mem := by
  have heq := fun g => (hinv.piecewise hD g).mergeRight_eq ha
  by_cases hfree : (T s.right).any Seg.free
  · simp only [if_pos hfree] at heq
    obtain ⟨t, ht, htf⟩ := (Option.any_eq_true _ _).1 hfree
    have htR := hinv.all ht htf
    have htake := hinv.rep.take ht htR
    have hne := (hinv.rep.layout.wf.right_ne (by decide) ha).symm
    have happ := T.setFree_false_apply 24 s.right t
    have ha' : T.setFree 24 s.right t false a = some s := by rw [happ, if_neg hne, ha]
    have hD' : Apart header (T.setFree 24 s.right t false) D := hD.mono fun c u hc => by
      rw [happ] at hc
      split_ifs at hc with hcr
      · exact ⟨t, hcr ▸ ht, by rw [← Option.some.inj hc]⟩
      · exact ⟨u, hc, le_rfl⟩
    exact ((hinv.rep.spares_unlink hD ht htR).comp
      (htake.spares_merge hD' ha' ((happ _).trans (if_pos rfl)))).congr
      heq
  · simp only [if_neg hfree] at heq
    exact spares_id.congr heq

/-- A segment in use becoming free. -/
theorem Rep.spares_release (hrep : Rep header B m T R) (hD : Apart header (T.setFree 24 a s true) D)
    (ha : T a = some s) (hu : s.free = false) : Spares D (fun m => Heap.release header m a) m := by
  obtain ⟨hpos, hoff, hlt⟩ := hrep.layout.bound ha
  have w₁ : word (a + 16) = a + 16 := word_eq (by omega)
  have w₂ : word (a + 20) = a + 20 := word_eq (by omega)
  have hself : T.setFree 24 a s true a =
      some { s with hoff := 24, avail := s.avail + s.hoff - 24, free := true } :=
    Function.update_self ..
  have hdesc : ∀ o < 24, a + o ∉ D := hD.seg hself
  -- The header is made one of 24 bytes first, from words of the descriptor alone.
  have hnormalise : Spares D (fun m : Mem => if m.headerOffset a > sizeofHeapSegmentDesc then
      (m.setAvailableSize a (word (m.availableSize a +
        wordSub (m.headerOffset a) sizeofHeapSegmentDesc))).setHeaderOffset a sizeofHeapSegmentDesc
      else m) m := by
    have hoff' : ∀ g, D.piecewise g m (a + 20) = s.hoff := fun g => by
      rw [Set.piecewise_eq_of_notMem _ _ _ (hdesc 20 (by decide))]
      exact (hrep.seg ha).hoff
    have havail' : ∀ g, D.piecewise g m (a + 16) = s.avail := fun g => by
      rw [Set.piecewise_eq_of_notMem _ _ _ (hdesc 16 (by decide))]
      exact (hrep.seg ha).avail
    by_cases hgt : s.hoff > sizeofHeapSegmentDesc
    · have hs : Spares D (fun m : Mem => (m.write (a + 16) (word (s.avail +
          wordSub s.hoff sizeofHeapSegmentDesc))).write (a + 20) sizeofHeapSegmentDesc) m :=
        (spares_write (hdesc 16 (by decide)) _).comp (spares_write (hdesc 20 (by decide)) _)
      refine hs.congr fun g => ?_
      rw [headerOffset, availableSize, setAvailableSize, setHeaderOffset, w₁, w₂, hoff',
        havail', if_pos hgt]
    · refine spares_id.congr fun g => ?_
      rw [headerOffset, w₂, hoff', if_neg hgt]
  exact hnormalise.comp ((hrep.normalise ha hu).spares_link hD hself)

omit [DecidablePred (· ∈ D)] in
/-- A segment released has a shorter descriptor, if any. -/
theorem Apart.setFree (hD : Apart header T D) (hlay : Layout header B T) (ha : T a = some s) :
    Apart header (T.setFree 24 a s true) D := hD.mono fun c u hc => by
  rw [T.setFree_true_apply] at hc
  split_ifs at hc with hca
  · exact ⟨s, hca ▸ ha, by rw [← Option.some.inj hc]; exact (hlay.bound ha).2.1⟩
  · exact ⟨u, hc, le_rfl⟩

theorem Inv.spares_mergeLeft (hinv : Inv header B h T R) (hD : Apart header T D) (ha : T a = some s)
    (hu : s.free = false) : Spares D (fun m => Heap.mergeLeft header m a) h.mem := by
  have hwf := hinv.rep.layout.wf
  have heq := fun g => (hinv.piecewise hD g).mergeLeft_eq ha
  by_cases hfree : (T s.left).any Seg.free
  · simp only [if_pos hfree] at heq
    obtain ⟨t, ht, -⟩ := (Option.any_eq_true _ _).1 hfree
    have hta := (hwf.of_left ha ht).1
    subst hta
    exact (hinv.rep.spares_merge hD ht ha).congr heq
  · simp only [if_neg hfree] at heq
    exact (hinv.rep.spares_release (hD.setFree hinv.rep.layout ha) ha hu).congr heq

/-- Giving a segment back. -/
theorem Inv.spares_free (hinv : Inv header B h T R) (hD : Apart header T D) (ha : T a = some s)
    (hu : s.free = false) : ∀ g, free header { h with mem := D.piecewise g h.mem } (a + s.hoff) =
      { free header h (a + s.hoff) with
        mem := D.piecewise g (free header h (a + s.hoff)).mem } := by
  intro g
  obtain ⟨T', R', s', hinv', hj⟩ := hinv.mergeRight ha hu
  have hD' : Apart header T' D :=
    hD.mono fun c u hc => (hj.header hc).imp fun v hv => ⟨hv.1, hv.2.le⟩
  have hs := (hinv.spares_mergeRight hD ha).comp (hinv'.spares_mergeLeft hD' hj.seg hj.used)
  rw [(hinv.piecewise hD g).free_eq ha hu, hinv.free_eq ha hu]
  exact congrArg (Heap.mk · h.start h.stop) (hs g)

/-! ## Allocation -/

/-- The addresses `D` are apart from the blocks of the heap and from the header of the free ring. -/
structure Outside (header : ℕ) (B : Set (ℕ × ℕ)) (D : Set ℕ) : Prop where
  header : header ∉ D ∧ header + 4 ∉ D
  block : ∀ b ∈ B, ∀ x ∈ D, x < b.1 ∨ b.2 ≤ x

omit [DecidablePred (· ∈ D)] in
theorem Outside.seg (hD : Outside header B D) (hlay : Layout header B T) (ha : T a = some s) :
    ∀ x ∈ D, x < a ∨ a + s.hoff + s.avail ≤ x := fun x hx => by
  obtain ⟨hb, h₁, h₂⟩ := hlay.wf.block ha
  have := hD.block _ hb x hx
  rw [Seg.len] at h₂
  simp only at this
  omega

omit [DecidablePred (· ∈ D)] in
theorem Outside.apart (hD : Outside header B D) (hlay : Layout header B T) : Apart header T D :=
  ⟨hD.header, fun a s ha o ho hx => by have := hD.seg hlay ha _ hx; omega⟩

theorem Rep.spares_cut (hrep : Rep header B m T R) (hD : Outside header B D)
    (ha : T a = some s) {k : ℕ}
    (hk : k + 24 ≤ s.avail) : Spares D (fun m => Heap.cut m a k) m := by
  have hbnd := hrep.layout.bound ha
  have hapart := hD.apart hrep.layout
  refine spares_of_apply (fun g x hx => ?_) fun g x hx => ?_
  · have h₁ := hD.seg hrep.layout ha x hx
    have h₂ := hapart.ne_right hrep.layout ha hx
    rw [(hrep.piecewise hapart g).cut_apply ha hk, if_neg (by omega), if_neg (by omega),
      if_neg (by omega), if_neg h₂, if_neg (by omega), if_neg (by omega), if_neg (by omega)]
  · rw [(hrep.piecewise hapart g).cut_apply ha hk, hrep.cut_apply ha hk,
      Set.piecewise_eq_of_notMem _ _ _ hx]

/-- A segment is cut, and the rest of it enters the free ring. -/
theorem Rep.spares_cut_link (hrep : Rep header B m T R) (hD : Outside header B D)
    (ha : T a = some s) {k : ℕ}
    (hk : k + 24 ≤ s.avail) (h4 : 4 ∣ a + s.hoff + k) :
    Spares D (fun m => Heap.link header (Heap.cut m a k) (a + s.hoff + k)) m := by
  have hcut := hrep.cut ha hk h4
  exact (hrep.spares_cut hD ha hk).comp (hcut.spares_link (hD.apart hcut.layout)
    (hrep.layout.wf.split_new (by decide) ha hk))

/-- The heap with the contents of `g` at the addresses `D`. -/
def overlay (D : Set ℕ) [DecidablePred (· ∈ D)] (g : Mem) (h : Heap) : Heap :=
  { h with mem := D.piecewise g h.mem }

/-- An operation on the heap neither reads nor writes the addresses `D`: whatever they hold, its
    result is the same, and so is what it makes of the other addresses. -/
def SparesHeap {α : Type*} (D : Set ℕ) [DecidablePred (· ∈ D)] (f : Heap → Option (α × Heap))
    (h : Heap) :
    Prop := ∀ g, f (h.overlay D g) = (f h).map (Prod.map id (overlay D g))

/-- Where the memory afterwards spares `D`, so does the heap. -/
theorem spares_overlay {α : Type*} {f : Mem → Mem} (hs : Spares D f h.mem) (g : Mem) (r : α) :
    some (r, { h.overlay D g with mem := f (h.overlay D g).mem }) =
      (some (r, { h with mem := f h.mem })).map (Prod.map id (Heap.overlay D g)) :=
  congrArg (fun m => some (r, Heap.mk m h.start h.stop)) (hs g)

theorem Inv.spares_allocate (hinv : Inv header B h T R) (hD : Outside header B D) (n : ℕ) :
    SparesHeap D (fun h => allocate header h n) h := by
  intro g
  have hrep := hinv.rep
  have hapart := hD.apart hrep.layout
  have hrep' : Rep header B (h.overlay D g).mem T R := hrep.piecewise hapart g
  -- The search reads the sizes of the segments only.
  have hfind' : (R.find? fun a => alignUp n 4 ≤ (h.overlay D g).mem.availableSize a) =
      R.find? fun a => alignUp n 4 ≤ h.mem.availableSize a := by
    refine List.find?_congr fun a haR => ?_
    obtain ⟨s, ha, -⟩ := hrep.mem_ring a haR
    rw [hrep'.availableSize_eq ha, hrep.availableSize_eq ha]
  beta_reduce
  cases hfind : R.find? fun a => alignUp n 4 ≤ h.mem.availableSize a with
  | none =>
    rw [hrep.allocate_of_none hfind, hrep'.allocate_of_none (hfind'.trans hfind)]
    rfl
  | some a =>
    have haR := List.mem_of_find?_eq_some hfind
    obtain ⟨s, ha, hf⟩ := hrep.mem_ring a haR
    have hoff := hrep.layout.wf.free_header ha hf
    obtain ⟨hle, heq⟩ := hrep.allocate_of_some ha hf hfind
    rw [heq, (hrep'.allocate_of_some ha hf (hfind'.trans hfind)).2]
    -- Cutting, linking and unlinking write into segments and the header of the ring.
    have hs : Spares D (fun m : Mem => (if s.avail - alignUp n 4 > 24 then
        Heap.link header (Heap.cut m a (alignUp n 4)) (a + 24 + alignUp n 4)
          else m).delNodeFromRingDoubleList
        (a + 8)) h.mem := by
      by_cases hgt : s.avail - alignUp n 4 > 24
      · have hk : alignUp n 4 + 24 ≤ s.avail := by omega
        have h4 : 4 ∣ a + s.hoff + alignUp n 4 :=
          Nat.dvd_add (Nat.dvd_add (hrep.layout.aligned ha) (hoff ▸ by decide)) (alignUp_four_dvd n)
        obtain ⟨R', hR', hlink⟩ :=
          (hrep.cut ha hk h4).link (hrep.layout.wf.split_new (by decide) ha hk) rfl
          (hrep.not_mem_cut ha hk)
        have hs :=
          (hrep.spares_cut_link hD ha hk h4).comp (hlink.spares_unlink (hD.apart hlink.layout)
          (hrep.layout.wf.split_self (by decide) ha hk) ((hR' a).2 (.inr haR)))
        rw [hoff] at hs
        refine hs.congr fun g => ?_
        rw [if_pos hgt]
      · refine (hrep.spares_unlink hapart ha haR).congr fun g => ?_
        rw [if_neg hgt]
    exact spares_overlay hs g _

/-- The payload of a segment which is not free is set to begin further on. -/
theorem spares_setPayload {c r avail : ℕ} (hc : c + 24 ≤ r) (hr : r < 2 ^ 32) (h₁ : c + 16 ∉ D)
    (h₂ : c + 20 ∉ D)
    (h₃ : r - 4 ∉ D) : Spares D (fun m => Heap.setPayload m c r avail) m := by
  have w₁ : word (c + 16) = c + 16 := word_eq (by omega)
  have w₂ : word (c + 20) = c + 20 := word_eq (by omega)
  have w₃ : wordSub r 4 = r - 4 := wordSub_eq (by omega) hr
  have hs : Spares D (fun m : Mem =>
      ((m.write (c + 16) avail).write (c + 20) (wordSub r c)).write (r - 4) (wordSub r c)) m :=
    ((spares_write h₁ _).comp (spares_write h₂ _)).comp (spares_write h₃ _)
  refine hs.congr fun g => ?_
  simp only [Heap.setPayload, setAvailableSize, setHeaderOffset, headerOffset, w₁, w₂, w₃,
    write_apply, if_true]

/-- The padding of an aligned block is cut off, in front of its descriptor. -/
theorem Rep.spares_cutFront (hrep : Rep header B m T R) (hD : Outside header B D)
    (ha : T a = some s)
    {k : ℕ} (hk : k + 24 ≤ s.avail) : Spares D (fun m => Heap.setPayload
      (Heap.cutFront m a (a + s.hoff + k) (a + s.hoff)) (a + s.hoff + k) (a + s.hoff + k + 24)
      (s.avail - k - 24)) m := by
  have hapart := hD.apart hrep.layout
  have hcut : ∀ g, Heap.cut (D.piecewise g m) a k = D.piecewise g (Heap.cut m a k) :=
    hrep.spares_cut hD ha hk
  refine spares_of_apply (fun g x hx => ?_) fun g x hx => ?_
  · have h₁ := hD.seg hrep.layout ha x hx
    rw [(hrep.piecewise hapart g).cutFront_apply ha hk, if_neg (by omega), hcut,
      Set.piecewise_eq_of_mem _ _ _ hx, Set.piecewise_eq_of_mem _ _ _ hx]
  · rw [(hrep.piecewise hapart g).cutFront_apply ha hk, hrep.cutFront_apply ha hk, hcut,
      Set.piecewise_eq_of_notMem _ _ _ hx]

/-- The first half of an aligned allocation: the segment in use, before what comes after the block
    is cut off. -/
theorem Inv.spares_takeFront (hinv : Inv header B h T R) (hD : Outside header B D)
    (ha : T a = some s)
    (hf : s.free) {r : ℕ} (hr : Room a s r) : ∃ (f : Mem → Mem) (c : ℕ) (T₁ : Tiling)
    (R₁ : List ℕ) (u : Seg),
      (∀ m, Rep header B m T R → takeFront m (a + 8) r = (f m, c)) ∧
      Spares D (fun m => Heap.setPayload (f m) c r (a + 24 + s.avail - r)) h.mem ∧
      Inv header B { h with mem := (Heap.setPayload (f h.mem) c r (a + 24 + s.avail - r)) } T₁ R₁ ∧
      Taken T T₁ c r (a + 24 + s.avail - r) u := by
  have hrep := hinv.rep
  have hbnd := hrep.layout.bound ha
  have hoff := hrep.layout.wf.free_header ha hf
  have hle := hr.le
  have hle' := hr.le_end
  have hnew : alignDown (wordSub r sizeofHeapSegmentDesc) 4 = r - 24 := by
    rw [sizeofHeapSegmentDesc, wordSub_eq (by omega) (by omega),
      alignDown_four (by omega) (Nat.dvd_sub hr.aligned (by decide))]
  have hpay : ∀ {m}, Rep header B m T R → payloadAddr m a = a + 24 := fun hm => by
    rw [hm.payloadAddr_eq ha, hoff]
  -- The front is cut off as a segment of its own if a descriptor fits into it.
  by_cases hgt : a + 24 < r - 24
  · obtain ⟨T₁, u, hinv₁, htaken⟩ := hinv.cutFront ha hf hr hgt
    refine ⟨fun m => Heap.cutFront m a (r - 24) (a + 24), _, T₁, _, u, fun m hm => ?_, ?_,
      hinv₁, htaken⟩
    · rw [takeFront_eq (hrep.layout.listEntry_eq ha) (hpay hm) hnew, if_pos hgt]
    · obtain ⟨k, hk⟩ : ∃ k, r = a + s.hoff + k + 24 := ⟨r - a - 48, by omega⟩
      have e₁ : r - 24 = a + s.hoff + k := by omega
      have e₂ : a + 24 + s.avail - r = s.avail - k - 24 := by omega
      have e₃ : a + 24 = a + s.hoff := by omega
      rw [e₂, e₁, e₃, hk]
      exact hrep.spares_cutFront hD ha (by omega)
  · obtain ⟨T₁, u, hinv₁, htaken⟩ := hinv.growHeader ha hf hr
    refine ⟨fun m => m.delNodeFromRingDoubleList (a + 8), _, T₁, _, u, fun m hm => ?_, ?_,
      hinv₁, htaken⟩
    · rw [takeFront_eq (hrep.layout.listEntry_eq ha) (hpay hm) hnew, if_neg hgt]
    · have hx : ∀ x, a ≤ x → x < a + 24 + s.avail → x ∉ D := fun x h₁ h₂ hx => by
        have := hD.seg hrep.layout ha x hx
        omega
      have hlt : r - 4 < a + 24 + s.avail := by omega
      exact (hrep.spares_unlink (hD.apart hrep.layout) ha (hinv.all ha hf)).comp
        (spares_setPayload hle (by omega)
        (hx _ (by omega) (by omega)) (hx _ (by omega) (by omega)) (hx _ (by omega) hlt))

theorem Inv.spares_takeAligned (hinv : Inv header B h T R) (hD : Outside header B D)
    (ha : T a = some s)
    (hf : s.free) {r : ℕ} (hr : Room a s r) {k : ℕ} (hk : r + k ≤ a + 24 + s.avail) (h4 : 4 ∣ k) :
    Spares D (fun m => Heap.takeAligned header m (a + 8) r (a + 24 + s.avail - r) k) h.mem := by
  have hbnd := hinv.rep.layout.bound ha
  have hoff := hinv.rep.layout.wf.free_header ha hf
  have hle' := hr.le_end
  have hsize : wordSub (a + 24 + s.avail - r) k = a + 24 + s.avail - r - k :=
    wordSub_eq (by omega) (by omega)
  obtain ⟨f, c, T₁, R₁, u, hfront, hs, hinv₁, htaken⟩ := hinv.spares_takeFront hD ha hf hr
  have heq : ∀ g, Heap.takeAligned header (D.piecewise g h.mem) (a + 8) r (a + 24 + s.avail - r) k =
      if a + 24 + s.avail - r - k > 24 then Heap.link header
        (Heap.cut (Heap.setPayload (f (D.piecewise g h.mem)) c r (a + 24 + s.avail - r)) c k)
          (r + k)
      else Heap.setPayload (f (D.piecewise g h.mem)) c r (a + 24 + s.avail - r) := fun g => by
    rw [takeAligned_eq (hfront _ (hinv.rep.piecewise (hD.apart hinv.rep.layout) g)) hsize
      (word_eq (show r + k < 2 ^ 32 by omega)), sizeofHeapSegmentDesc]
  by_cases hgt : a + 24 + s.avail - r - k > 24
  · simp only [if_pos hgt] at heq
    have hpay := htaken.payload
    have havail := htaken.avail
    have h4' : 4 ∣ c + u.hoff + k := hpay ▸ Nat.dvd_add hr.aligned h4
    have hs' := hs.comp (hinv₁.rep.spares_cut_link hD htaken.seg (by omega) h4')
    rw [hpay] at hs'
    exact hs'.congr heq
  · simp only [if_neg hgt] at heq
    exact hs.congr heq

theorem Inv.spares_allocateAligned (hinv : Inv header B h T R) (hD : Outside header B D) {n k : ℕ}
    (hk : k < 32)
    (hno : ∀ p, Takes header h.mem n (2 ^ k) p → NoOverflow h.mem n k (listEntry p)) :
    SparesHeap D (fun h => allocateAligned header h n (2 ^ k)) h := by
  intro g
  have hrep := hinv.rep
  have hrep' : Rep header B (h.overlay D g).mem T R := hrep.piecewise (hD.apart hrep.layout) g
  -- The search reads headers of segments only, none of which is in `D`.
  have haddr : ∀ a ∈ R, alignedAddr (h.overlay D g).mem a (2 ^ k) = alignedAddr h.mem a (2 ^ k) ∧
      alignedSize (h.overlay D g).mem a (2 ^ k) = alignedSize h.mem a (2 ^ k) := fun a haR => by
    obtain ⟨s, ha, -⟩ := hrep.mem_ring a haR
    rw [hrep'.alignedAddr_eq ha, hrep.alignedAddr_eq ha, hrep'.alignedSize_eq ha,
      hrep.alignedSize_eq ha]
    exact ⟨rfl, rfl⟩
  have hfind' : (R.find? fun a => Suffices (h.overlay D g).mem n (2 ^ k) a) =
      R.find? fun a => Suffices h.mem n (2 ^ k) a :=
    List.find?_congr fun a haR => by rw [decide_eq_decide, Suffices, Suffices, (haddr a haR).2]
  beta_reduce
  cases hfind : R.find? fun a => Suffices h.mem n (2 ^ k) a with
  | none =>
    rw [(hrep.allocateAligned_of_none hfind).1,
      (hrep'.allocateAligned_of_none (hfind'.trans hfind)).1]
    have hlast : R.foldl (fun _ a => alignedAddr (h.overlay D g).mem a (2 ^ k)) 0 =
        R.foldl (fun _ a => alignedAddr h.mem a (2 ^ k)) 0 :=
      List.foldl_ext _ _ _ fun _ a haR => (haddr a haR).1
    rw [hlast]
    rfl
  | some a =>
    have haR := List.mem_of_find?_eq_some hfind
    obtain ⟨s, ha, hf⟩ := hrep.mem_ring a haR
    obtain ⟨heq, htakes⟩ := hrep.allocateAligned_of_some hfind
    rw [heq, (hrep'.allocateAligned_of_some (hfind'.trans hfind)).1, (haddr a haR).1,
      (haddr a haR).2]
    have hbnd := hrep.layout.bound ha
    have hoff := hrep.layout.wf.free_header ha hf
    have hno := hno (a + 8) ((htakes _).2 rfl)
    rw [hrep.layout.listEntry_eq ha] at hno
    have hroom := hrep.room ha hf hk hno
    have hle' := hroom.le_end
    have hsize : alignedSize h.mem a (2 ^ k) = a + 24 + s.avail - alignedAddr h.mem a (2 ^ k) := by
      rw [hrep.alignedSize_eq ha, ← hrep.alignedAddr_eq ha, hoff, wordSub_eq hle' (by omega)]
    have hsuff : Suffices h.mem n (2 ^ k) a := by simpa using List.find?_some hfind
    rw [Suffices, hsize] at hsuff
    rw [hsize]
    have hs :=
      hinv.spares_takeAligned hD ha hf hroom (k := alignUp n 4) (by omega) (alignUp_four_dvd n)
    exact spares_overlay hs g _

end Heap

end DemoOs
