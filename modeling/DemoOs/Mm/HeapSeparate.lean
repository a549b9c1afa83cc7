import DemoOs.Lib.Carving
import DemoOs.Mm.HeapRun

/-!
# Separating a range from the heap

`separateFreeBlock` gives the first bytes of a free segment away for good. Its descriptor is among
these bytes, and it is still linked in the free ring when the descriptor of what is left of the
segment is written, at a distance of as few as 16 bytes, and linked.
-/

namespace DemoOs

namespace Heap

open Mem
open Tiling (HasRest rest keepLeft keepRight carve carveBlocks)

variable {header : ℕ} {B : Set (ℕ × ℕ)} {T : Tiling} {m m' : Mem} {h : Heap} {R : List ℕ} {a d : ℕ}
  {s : Seg}

/-! ## The descriptors -/

/-- The descriptors of the segments which are left, in the memory `m'`: what is left of the segment
    `s` at `a` has one, its neighbours do not know the segment any more, and nothing else has
    changed. -/
structure Carved (m m' : Mem) (a : ℕ) (s : Seg) (d : ℕ) : Prop where
  left : s.left ≠ 0 → m' (s.left + 4) = 0
  right : s.right ≠ 0 → m' s.right = if HasRest 24 s d then a + d else 0
  rest : HasRest 24 s d → SegAt m' (a + d) (rest 24 a s d)
  same : ∀ x, x < a + 16 ∨ a + s.len ≤ x → (s.left ≠ 0 → x ≠ s.left + 4) →
    (s.right ≠ 0 → x ≠ s.right) →
    m' x = m x

/-- The stores of `keepRest`, without those of `link`. -/
def restDescriptor (m : Mem) (ret node leftSize : ℕ) : Mem :=
  let m := m.setAvailableSize node (wordSub leftSize sizeofHeapSegmentDesc)
  let m := m.setHeaderOffset node sizeofHeapSegmentDesc
  let m := m.setRight node (m.right ret)
  let m := if m.right node ≠ 0 then m.setLeft (m.right node) node else m
  let m := m.setLeft node 0
  if m.left ret ≠ 0 then m.setRight (m.left ret) 0 else m

theorem keepRest_eq (header : ℕ) (m : Mem) (ret node leftSize : ℕ) :
    keepRest header m ret node leftSize = link header (restDescriptor m ret node leftSize) node :=
  rfl

section Carve

variable (hrep : Rep header B m T R) (ha : T a = some s)

include hrep ha

/-- The neighbour on the left of a segment has its descriptor before it. -/
theorem Rep.left_le : s.left = 0 ∨ s.left + 24 ≤ a := by
  by_cases h₀ : s.left = 0
  · exact .inl h₀
  · obtain ⟨t, ht, -, he, -⟩ := hrep.layout.wf.left_end ha h₀
    have := hrep.layout.bound ht
    rw [Seg.len] at he
    omega

theorem Rep.restDescriptor_apply (hd : 16 ≤ d) (hr : HasRest 24 s d) (x : ℕ) :
    restDescriptor m a (a + d) (s.len - d) x =
      if s.left ≠ 0 ∧ x = s.left + 4 then 0 else if x = a + d then 0
      else if s.right ≠ 0 ∧ x = s.right then a + d else if x = a + d + 4 then s.right
      else if x = a + d + 20 then 24 else if x = a + d + 16 then s.len - d - 24 else m x := by
  obtain ⟨hpos, hoff, hlt⟩ := hrep.layout.bound ha
  have hright := hrep.layout.right_eq ha
  rw [HasRest, Seg.len] at hr
  have hleft := hrep.left_le ha
  have hseg := hrep.seg ha
  have w₁ : word (a + d + 16) = a + d + 16 := word_eq (by omega)
  have w₂ : word (a + d + 20) = a + d + 20 := word_eq (by omega)
  have w₃ : word (a + d + 4) = a + d + 4 := word_eq (by omega)
  have w₄ : word (a + 4) = a + 4 := word_eq (by omega)
  have w₅ : word (s.left + 4) = s.left + 4 := word_eq (by omega)
  have w₆ : wordSub (s.len - d) 24 = s.len - d - 24 := by
    rw [Seg.len]
    exact wordSub_eq (by omega) (by omega)
  -- What is read on the way was not written.
  have hread : ((m.setAvailableSize (a + d) (s.len - d - 24)).setHeaderOffset (a + d) 24).right a =
      s.right := by
    simp only [setAvailableSize, setHeaderOffset, Mem.right, w₁, w₂, w₄, write_apply]
    rw [if_neg (by omega), if_neg (by omega), hseg.right]
  have hread' : ∀ m : Mem, (m.setRight (a + d) s.right).right (a + d) = s.right :=
    fun m => if_pos rfl
  have hread'' : ∀ m' : Mem, m' a = s.left →
      ((if s.right ≠ 0 then (m'.setRight (a + d) s.right).setLeft s.right (a + d)
        else m'.setRight (a + d) s.right).setLeft (a + d) 0).left a = s.left := fun m' hm' => by
    simp only [Mem.setLeft, setRight, Mem.left, w₃, write_apply, ite_apply]
    grind
  simp only [restDescriptor, sizeofHeapSegmentDesc, w₆, hread, hread']
  rw [hread'']
  · simp only [setAvailableSize, setHeaderOffset, Mem.setLeft, setRight, w₁, w₂, w₃, w₅,
      write_apply, ite_apply]
    grind
  · simp only [setAvailableSize, setHeaderOffset, w₁, w₂, write_apply]
    rw [if_neg (by omega), if_neg (by omega), hseg.left]

theorem Rep.dropBlock_apply (x : ℕ) :
    dropBlock m a x = if s.left ≠ 0 ∧ x = s.left + 4 then 0
      else if s.right ≠ 0 ∧ x = s.right then 0 else m x := by
  obtain ⟨hpos, hoff, hlt⟩ := hrep.layout.bound ha
  have hright := hrep.layout.right_eq ha
  have hleft := hrep.left_le ha
  have hl := (hrep.seg ha).left
  have w : word (s.left + 4) = s.left + 4 := word_eq (by omega)
  have hread : (if s.right ≠ 0 then m.setLeft s.right 0 else m).left a = s.left := by
    simp only [Mem.setLeft, Mem.left, write_apply, ite_apply]
    grind
  simp only [dropBlock, hrep.right_eq ha, hread]
  simp only [Mem.setLeft, setRight, w, write_apply, ite_apply]
  grind

/-- The stores of `separateFreeBlock` to the descriptors. -/
theorem Rep.carved_rest (hd : 16 ≤ d) (hr : HasRest 24 s d) :
    Carved m (restDescriptor m a (a + d) (s.len - d)) a s d := by
  have happ := hrep.restDescriptor_apply ha hd hr
  have hright := hrep.layout.right_eq ha
  have hleft := hrep.left_le ha
  have hbnd := hrep.layout.bound ha
  rw [HasRest, Seg.len] at hr
  refine ⟨fun h₀ => ?_, fun h₀ => ?_, fun _ => ?_, fun x hx hl hx' => ?_⟩
  · rw [happ, if_pos ⟨h₀, rfl⟩]
  · rw [happ, if_neg (by omega), if_neg (by omega), if_pos ⟨h₀, rfl⟩,
      if_pos (by rw [HasRest, Seg.len]; omega)]
  · have hlen : s.len = s.hoff + s.avail := rfl
    constructor <;> simp only [rest] <;> rw [happ]
    · rw [if_neg (by omega), if_pos rfl]
    · rw [if_neg (by omega), if_neg (by omega), if_neg (by omega), if_pos rfl]
    · rw [if_neg (by omega), if_neg (by omega), if_neg (by omega), if_neg (by omega),
        if_neg (by omega), if_pos rfl]
    · rw [if_neg (by omega), if_neg (by omega), if_neg (by omega), if_neg (by omega), if_pos rfl]
    · rw [if_neg (by omega), if_neg (by omega), if_neg (by omega), if_neg (by omega),
        if_pos (by omega)]
  · rw [Seg.len] at hx
    rw [happ, if_neg (fun e => hl e.1 e.2), if_neg (by omega), if_neg (fun e => hx' e.1 e.2),
      if_neg (by omega), if_neg (by omega), if_neg (by omega)]

theorem Rep.carved_drop (hr : ¬HasRest 24 s d) : Carved m (dropBlock m a) a s d := by
  have happ := hrep.dropBlock_apply ha
  have hright := hrep.layout.right_eq ha
  have hleft := hrep.left_le ha
  have hbnd := hrep.layout.bound ha
  refine ⟨fun h₀ => ?_, fun h₀ => ?_, fun h => absurd h hr, fun x hx hl hx' => ?_⟩
  · rw [happ, if_pos ⟨h₀, rfl⟩]
  · rw [happ, if_neg (by omega), if_pos ⟨h₀, rfl⟩, if_neg hr]
  · rw [happ, if_neg (fun e => hl e.1 e.2), if_neg (fun e => hx' e.1 e.2)]

/-- The descriptors of the other segments are those of before, but for what their neighbours
    know. -/
theorem Rep.carved_same (hc : Carved m m' a s d) {c : ℕ} {u : Seg} (hcu : T c = some u)
    (hca : c ≠ a)
    {o : ℕ} (ho : o < u.hoff) (hl : c = s.left → s.left ≠ 0 → o ≠ 4) (hr : c = s.right → o ≠ 0) :
    m' (c + o) = m (c + o) := by
  have hwf := hrep.layout.wf
  have hsep := hrep.layout.sep hcu ha hca
  refine hc.same _ (by rw [Seg.len]; omega) (fun h₀ e => ?_) fun h₀ e => ?_
  · -- The address is in the descriptor of the left neighbour.
    obtain ⟨t, ht, -, -, -⟩ := hwf.left_end ha h₀
    by_cases hcl : c = s.left
    · exact hl hcl h₀ (by omega)
    · have h₁ := hrep.layout.sep hcu ht hcl
      have h₂ := hrep.layout.bound ht
      omega
  · by_cases hcr : c = s.right
    · exact hr hcr (by omega)
    · exact hrep.layout.ne_right hcu ho hcr ha e

/-- The descriptors of the tiling afterwards are in memory. -/
theorem Rep.segAt_carve (hd : 0 < d) (hds : d < s.len) (hc : Carved m m' a s d) {c : ℕ} {u : Seg}
    (hu : carve 24 T a s d c = some u) : SegAt m' c u := by
  have hwf := hrep.layout.wf
  rcases hwf.carve_cases (by decide) ha hd hds hu with
    ⟨hr, rfl, rfl⟩ | ⟨u, hcu, hca, ⟨hlo, rfl⟩ | ⟨hlo, hle, rfl⟩ | ⟨hlo, hle, rfl⟩⟩
  · -- The segment behind the range.
    exact hc.rest hr
  · -- The neighbours are in the same block.
    refine (hrep.seg hcu).congr (hrep.layout.bound hcu).2.1 fun o ho _ _ => ?_
    refine hrep.carved_same ha hc hcu hca ho (fun e h₀ => absurd ?_ hlo) fun e => absurd ?_ hlo
    · obtain ⟨t, ht, -, -, hlo', -⟩ := hwf.left_end ha h₀
      rw [e, ht] at hcu
      rw [← Option.some.inj hcu, hlo']
    · exact (hwf.of_right ha (e ▸ hcu)).2.2.1
  · -- The segment is before the range: only its right link may have changed.
    have hcr : c ≠ s.right := by
      have := hrep.layout.right_eq ha
      have := hrep.layout.bound hcu
      have := hrep.layout.bound ha
      rw [Seg.len] at hle
      omega
    have hoff := (hrep.layout.bound hcu).2.1
    have hsame : ∀ o < u.hoff, o ≠ 4 → m' (c + o) = m (c + o) := fun o ho h₄ =>
      hrep.carved_same ha hc hcu hca ho (fun _ _ => h₄) fun e => absurd e hcr
    have hseg := hrep.seg hcu
    refine ⟨(hsame 0 (by omega) (by omega)).trans hseg.left, ?_,
      (hsame 16 (by omega) (by omega)).trans hseg.avail,
        (hsame 20 (by omega) (by omega)).trans hseg.hoff, ?_⟩
    · by_cases e : u.right = a
      · -- The segment is the left neighbour of the range.
        have h₀ : u.right ≠ 0 := by have := hrep.layout.bound ha; omega
        obtain ⟨-, t, ht, htc, -⟩ := hwf.right hcu h₀
        rw [e, ha] at ht
        obtain rfl := Option.some.inj ht
        have hpos := (hrep.layout.bound hcu).1
        rw [keepLeft, if_pos e, ← htc]
        exact hc.left (by omega)
      · rw [keepLeft, if_neg e]
        refine (hrep.carved_same ha hc hcu hca (by omega) (fun ecl h₀ => ?_) fun ecr =>
          absurd ecr hcr).trans
          hseg.right
        obtain ⟨t, ht, hta, -⟩ := hwf.left_end ha h₀
        rw [← ecl, hcu] at ht
        exact absurd (Option.some.inj ht ▸ hta) e
    · have := hsame (u.hoff - 4) (by omega) (by omega)
      rw [← Nat.add_sub_assoc (by omega)] at this
      exact this.trans hseg.tag
  · -- The segment is behind the range: only its left link may have changed.
    have hcl : c = s.left → s.left ≠ 0 → False := fun e h₀ => by
      have := hrep.left_le ha
      have := hrep.layout.bound ha
      omega
    have hoff := (hrep.layout.bound hcu).2.1
    have hsame : ∀ o < u.hoff, o ≠ 0 → m' (c + o) = m (c + o) := fun o ho h₀ =>
      hrep.carved_same ha hc hcu hca ho (fun e h => absurd h (hcl e)) fun _ => h₀
    have hleft : m' c = if u.left = a then if HasRest 24 s d then a + d else 0 else u.left := by
      by_cases e : u.left = a
      · have hpos := (hrep.layout.bound ha).1
        obtain ⟨t, ht, htc⟩ := hwf.left hcu (by omega)
        rw [e, ha] at ht
        obtain rfl := Option.some.inj ht
        rw [if_pos e, ← htc]
        exact hc.right (by have := (hrep.layout.bound hcu).1; omega)
      · rw [if_neg e]
        refine (hrep.carved_same ha hc hcu hca (o := 0) (by omega) (fun ecl h => absurd h (hcl ecl))
          fun ecr => ?_).trans (hrep.seg hcu).left
        obtain ⟨-, t, ht, hta, -⟩ := hwf.right ha (by have := (hrep.layout.bound hcu).1; omega)
        rw [← ecr, hcu] at ht
        exact absurd (Option.some.inj ht ▸ hta) e
    have := (hrep.seg hcu).setLeft hoff hleft hsame
    exact ⟨this.left, this.right, this.avail, this.hoff, this.tag⟩

/-! ## The free ring -/

theorem Rep.layout_carve (hd : 0 < d) (hds : d < s.len) (h4 : 4 ∣ d) :
    Layout header (carveBlocks 24 B a s d) (carve 24 T a s d) := by
  have hlay := hrep.layout
  have hself := (hlay.wf.block ha).1
  have hlt := hlay.lt _ hself
  have happ := hlay.apart _ hself
  have hbl := (hlay.wf.block ha).2
  have hstart : a < Tiling.restStart 24 a s d := by
    rw [Tiling.restStart]
    split_ifs <;> omega
  refine ⟨hlay.wf.carve (by decide) ha hd hds, ?_, ?_, hlay.header_pos, hlay.header_lt,
    fun c u hc => ?_⟩
  · rintro b (⟨hb, -⟩ | ⟨rfl, -⟩ | ⟨rfl, -⟩)
    · exact hlay.lt _ hb
    · simp only at hlt ⊢
      omega
    · exact hlt
  · rintro b (⟨hb, -⟩ | ⟨rfl, -⟩ | ⟨rfl, -⟩)
    · exact hlay.apart _ hb
    · simp only at happ ⊢
      omega
    · simp only at happ ⊢
      omega
  · rcases hlay.wf.carve_cases (by decide) ha hd hds hc with ⟨-, rfl, -⟩ | ⟨u, hu, -, -⟩
    · exact Nat.dvd_add (hlay.aligned ha) h4
    · exact hlay.aligned hu

/-- The cells of the list nodes are those of before. -/
theorem Rep.ring_carved (hc : Carved m m' a s d) :
    m'.linksOf.IsRing ↑(header :: R.map (· + 8)) := by
  have hbnd := hrep.layout.bound ha
  have hleft := hrep.left_le ha
  have hright := hrep.layout.right_eq ha
  refine hrep.ring_congr ?_ fun c hcR => ?_
  · have happ := hrep.layout.header_apart ha
    have hhdr := hrep.layout.header_ne_right ha
    have hlapart : s.left ≠ 0 → header ≠ s.left + 4 ∧ header + 4 ≠ s.left + 4 := fun h₀ => by
      obtain ⟨t, ht, -⟩ := hrep.layout.wf.left_end ha h₀
      have h₁ := hrep.layout.header_apart ht
      have h₂ := hrep.layout.bound ht
      omega
    constructor
    · refine hc.same _ (by rw [Seg.len]; omega) (fun h₀ => (hlapart h₀).1) fun _ => hhdr.1
    · refine hc.same _ (by rw [Seg.len]; omega) (fun h₀ => (hlapart h₀).2) fun _ => hhdr.2
  · by_cases hca : c = a
    · subst hca
      constructor
      · exact hc.same _ (.inl (by omega)) (fun h₀ => by omega) fun h₀ => by omega
      · exact hc.same _ (.inl (by omega)) (fun h₀ => by omega) fun h₀ => by omega
    · obtain ⟨u, hu, -⟩ := hrep.mem_ring c hcR
      have hoff := (hrep.layout.bound hu).2.1
      constructor
      · exact hrep.carved_same ha hc hu hca (by omega) (fun _ _ => by omega) fun _ => by omega
      · exact hrep.carved_same ha hc hu hca (by omega) (fun _ _ => by omega) fun _ => by omega

/-- The list node of what is left of the segment is apart from the others, that of the segment
    included. -/
theorem Rep.nodes_carve (hd : 16 ≤ d) (hr : HasRest 24 s d) :
    Nodes (ringNodes header ((a + d) :: R)) := by
  have hN : Nodes (ringNodes header R) :=
    hrep.layout.nodes fun c hc => (hrep.mem_ring c hc).imp fun u hu => hu.1
  have hbnd := hrep.layout.bound ha
  have happ := hrep.layout.header_apart ha
  rw [HasRest, Seg.len] at hr
  -- The links of the rest do not overlap those of any other segment.
  have hapart : ∀ c ∈ R, c + 8 ≠ a + d + 8 + 4 ∧ c + 8 + 4 ≠ a + d + 8 := fun c hc => by
    obtain ⟨u, hu, -⟩ := hrep.mem_ring c hc
    have h₁ := hrep.layout.bound hu
    by_cases hca : c = a
    · omega
    · have := hrep.layout.sep hu ha hca
      omega
  have hmem : ∀ p, p ∈ ringNodes header ((a + d) :: R) ↔
      p = a + d + 8 ∨ p ∈ ringNodes header R := by
    intro p
    simp only [ringNodes, Set.mem_ofPred_eq, List.mem_cons, exists_eq_or_imp]
    tauto
  intro p hp
  rw [hmem] at hp ⊢
  rcases hp with rfl | hp
  · refine ⟨by omega, by omega, ?_⟩
    rintro (e | e | ⟨c, hc, e⟩)
    · omega
    · omega
    · exact (hapart c hc).1 e.symm
  · obtain ⟨h₁, h₂, h₃⟩ := hN p hp
    refine ⟨h₁, h₂, ?_⟩
    rintro (e | e)
    · rcases hp with rfl | ⟨c, hc, rfl⟩
      · omega
      · exact (hapart c hc).2 e
    · exact h₃ e

/-- No segment afterwards has cells of list nodes in its descriptor, but for its own. -/
theorem Rep.not_cell_carve (hd : 16 ≤ d) (hds : d < s.len) {Q : List ℕ}
    (hQ : ∀ c ∈ Q, c = a + d ∧ HasRest 24 s d ∨ c ∈ R) {c : ℕ} {u : Seg}
    (hu : carve 24 T a s d c = some u) {o : ℕ} (ho : o < u.hoff) (h₀ : u.free → o ≠ 8 ∧ o ≠ 12) :
    ¬Cell (ringNodes header Q) (c + o) := by
  have hlay := hrep.layout
  have hbnd := hlay.bound ha
  -- The segment is the rest, or one that was there.
  rcases hlay.wf.carve_cases (by decide) ha (by omega) hds hu with
    ⟨hr, rfl, rfl⟩ | ⟨v, hv, hca, hvu⟩
  · have happ := hlay.header_apart ha
    have ho' : o < 24 := ho
    have h₀' := h₀ rfl
    rw [HasRest, Seg.len] at hr
    rintro ⟨p, rfl | ⟨e, he, rfl⟩, hp⟩
    · omega
    · rcases hQ e he with ⟨rfl, -⟩ | heR
      · omega
      · obtain ⟨w, hw, -⟩ := hrep.mem_ring e heR
        have h₁ := hlay.bound hw
        by_cases hea : e = a
        · omega
        · have := hlay.sep hw ha hea
          omega
  · have hfld : u.hoff = v.hoff ∧ u.free = v.free := by
      rcases hvu with ⟨-, rfl⟩ | ⟨-, -, rfl⟩ | ⟨-, -, rfl⟩ <;> exact ⟨rfl, rfl⟩
    rw [hfld.1] at ho
    rw [hfld.2] at h₀
    have hsep := hlay.sep hv ha hca
    have hnot := hlay.not_cell (fun c hc => (hrep.mem_ring c hc).imp fun u hu => hu.1) hv ho
      ((Decidable.em (c ∈ R)).symm.imp_right fun hcR => h₀ (hrep.free_of_mem hv hcR))
    rintro ⟨p, rfl | ⟨e, he, rfl⟩, hp⟩
    · exact hnot ⟨_, .inl rfl, hp⟩
    · rcases hQ e he with ⟨rfl, hr⟩ | heR
      · rw [HasRest, Seg.len] at hr
        omega
      · exact hnot ⟨_, .inr ⟨e, heR, rfl⟩, hp⟩

/-- The ring is that of the segments `Q`, the one carved still among them: it leaves the ring. -/
theorem Rep.unlink_carve (hd : 16 ≤ d) (hds : d < s.len) (h4 : 4 ∣ d)
    (hc : Carved m m' a s d) {m₂ : Mem}
    {Q : List ℕ} (hN : Nodes (ringNodes header Q))
    (hQ : ∀ c, c ∈ Q ↔ HasRest 24 s d ∧ c = a + d ∨ c ∈ R)
    (hring : m₂.linksOf.IsRing ↑(header :: Q.map (· + 8)))
    (hframe : ∀ y, ¬Cell (ringNodes header Q) y → m₂ y = m' y) (haR : a ∈ R) : ∃ R',
    Rep header (carveBlocks 24 B a s d) (m₂.delNodeFromRingDoubleList (a + 8))
      (carve 24 T a s d) R' ∧
      ∀ c, c ∈ R' ↔ HasRest 24 s d ∧ c = a + d ∨ c ∈ R ∧ c ≠ a := by
  have hwf := hrep.layout.wf
  have hnodup : Q.Nodup := (List.nodup_cons.1 (Cycle.nodup_coe_iff.1 hring.nodup)).2.of_map _
  obtain ⟨hring', -, hframe'⟩ :=
    unlink_spec hN (fun p => mem_ringNodes_of_mem) hring ((hQ a).2 (.inr haR))
  -- The segment leaves the ring; what is linked otherwise has been linked by then.
  have hmem : ∀ c, c ∈ Q.erase a ↔ HasRest 24 s d ∧ c = a + d ∨ c ∈ R ∧ c ≠ a := fun c => by
    rw [hnodup.mem_erase_iff, hQ]
    have : HasRest 24 s d ∧ c = a + d → c ≠ a := by omega
    tauto
  refine ⟨Q.erase a, .of_frame (hrep.layout_carve ha (by omega) hds h4)
    (fun c u => hrep.segAt_carve ha (by omega) hds hc) (fun c u hu huf => ?_)
    (fun c u hu o ho h₀ => hrep.not_cell_carve ha hd hds (fun e he => ?_) hu ho h₀)
    (fun y hy => (hframe' y hy).trans (hframe y hy)) hring' fun c hcQ => ?_, hmem⟩
  · -- The segments in use are those of before.
    rcases hwf.carve_cases (by decide) ha (by omega) hds hu with ⟨-, -, rfl⟩ | ⟨v, hv, hca, hvu⟩
    · cases huf
    · have hvf : v.free = false := by
        rcases hvu with ⟨-, rfl⟩ | ⟨-, -, rfl⟩ | ⟨-, -, rfl⟩ <;> exact huf
      have hoff := (hrep.layout.bound hv).2.1
      rw [hrep.carved_same ha hc hv hca (o := 8) (by omega) (fun _ _ => by omega) fun _ => by omega,
        hrep.carved_same ha hc hv hca (o := 12) (by omega) (fun _ _ => by omega) fun _ => by omega]
      exact hrep.null hv hvf
  · exact ((hQ e).1 he).imp_left fun h => ⟨h.2, h.1⟩
  · rcases (hmem c).1 hcQ with ⟨hr, rfl⟩ | ⟨hcR, hca⟩
    · exact ⟨_, Tiling.carve_rest T hr, rfl⟩
    · obtain ⟨u, hu, huf⟩ := hrep.mem_ring c hcR
      refine ⟨_, hwf.carve_keep (by decide) ha (by omega) hds hu hca, ?_⟩
      split_ifs <;> exact huf

/-- The heap without the first `d` addresses of a free segment. -/
theorem Rep.separate (hd : 16 ≤ d) (hds : d < s.len) (h4 : 4 ∣ d) (haR : a ∈ R) : ∃ R',
    Rep header (carveBlocks 24 B a s d) ((if HasRest 24 s d then
      keepRest header m a (a + d) (s.len - d) else dropBlock m a).delNodeFromRingDoubleList (a + 8))
      (carve 24 T a s d) R' ∧ ∀ c, c ∈ R' ↔ HasRest 24 s d ∧ c = a + d ∨ c ∈ R ∧ c ≠ a := by
  have hN : Nodes (ringNodes header R) :=
    hrep.layout.nodes fun c hc => (hrep.mem_ring c hc).imp fun u hu => hu.1
  by_cases hr : HasRest 24 s d
  · have hc := hrep.carved_rest ha hd hr
    have hN' := hrep.nodes_carve ha hd hr
    have hdl : doubleList (a + d) = a + d + 8 := by
      have := hrep.layout.bound ha
      rw [HasRest, Seg.len] at hr
      exact word_eq (by omega)
    have hfresh : a + d + 8 ∉ header :: R.map (· + 8) := by
      have happ := hrep.layout.header_apart ha
      have hbnd := hrep.layout.bound ha
      rw [HasRest, Seg.len] at hr
      simp only [List.mem_cons, List.mem_map, Nat.add_right_cancel_iff, exists_eq_right, not_or]
      refine ⟨by omega, fun hmem => ?_⟩
      obtain ⟨u, hu, -⟩ := hrep.mem_ring _ hmem
      rw [hrep.layout.wf.none_of_inside (by decide) ha (by omega) (by rw [Seg.len]; omega)] at hu
      cases hu
    -- The rest is linked into the ring before the segment is taken out.
    obtain ⟨Q, hQ, hring, hframe⟩ := link_spec hN'
      (fun p hp => mem_ringNodes_of_mem ((List.Perm.swap header (a + d + 8) _).mem_iff.1 hp)) hdl
      (hrep.ring_carved ha hc) hfresh
    have hnodes : ringNodes header ((a + d) :: R) = ringNodes header Q := by
      ext p
      simp only [ringNodes, Set.mem_ofPred_eq, List.mem_cons, hQ]
    rw [hnodes] at hN' hframe
    rw [if_pos hr, keepRest_eq]
    exact hrep.unlink_carve ha hd hds h4 hc hN'
      (fun c => by rw [hQ, and_iff_right hr]) hring hframe haR
  · rw [if_neg hr]
    have hc := hrep.carved_drop ha hr
    exact hrep.unlink_carve ha hd hds h4 hc hN (fun c => by simp [hr]) (hrep.ring_carved ha hc)
      (fun _ _ => rfl) haR

end Carve

/-! ## `separateFreeBlock` -/

theorem Inv.separate (hinv : Inv header B h T R) (ha : T a = some s) (hf : s.free) (hd : 16 ≤ d)
    (hds : d < s.len) (h4 : 4 ∣ d) : ∃ R', Inv header (carveBlocks 24 B a s d)
      { h with mem := ((if HasRest 24 s d then keepRest header h.mem a (a + d) (s.len - d)
        else dropBlock h.mem a).delNodeFromRingDoubleList (a + 8)) } (carve 24 T a s d) R' := by
  have hwf := hinv.rep.layout.wf
  obtain ⟨hself, hlo, hhi⟩ := hwf.block ha
  have hstart := hinv.start _ hself
  have hstop := hinv.stop _ hself
  have hrest : a < Tiling.restStart 24 a s d := by
    rw [Tiling.restStart]
    split_ifs <;> omega
  obtain ⟨R', hrep, hR'⟩ := hinv.rep.separate ha hd hds h4 (hinv.all ha hf)
  refine ⟨R', hrep, fun c u hu huf => ?_,
    hinv.coalesced.carve hwf (by decide) ha (by omega) hds hf, ?_, ?_⟩
  · rw [hR']
    rcases hwf.carve_cases (by decide) ha (by omega) hds hu with ⟨hr, hc, -⟩ | ⟨v, hv, hca, hvu⟩
    · exact .inl ⟨hr, hc⟩
    · have hvf : v.free = true := by
        rcases hvu with ⟨-, rfl⟩ | ⟨-, -, rfl⟩ | ⟨-, -, rfl⟩ <;> exact huf
      exact .inr ⟨hinv.all hv hvf, hca⟩
  · rintro b (⟨hb, -⟩ | ⟨rfl, -⟩ | ⟨rfl, -⟩)
    exacts [hinv.start b hb, hstart, by simp only at hstart ⊢; omega]
  · rintro b (⟨hb, -⟩ | ⟨rfl, -⟩ | ⟨rfl, -⟩)
    exacts [hinv.stop b hb, by simp only at hstop ⊢; omega, hstop]

/-- What `separateFreeBlock` does: with no free segment larger than the size asked for it returns
    null; otherwise these addresses of a free segment leave the heap. -/
theorem separateFreeBlock_spec (hinv : Inv header B h T R) (hd : 16 ≤ d) (h4 : 4 ∣ d)
    (hlt : d < 2 ^ 32) :
    separateFreeBlock header h d = some (0, h) ∨ ∃ a s R' m', T a = some s ∧ s.free ∧ d < s.len ∧
      separateFreeBlock header h d = some (a, { h with mem := m' }) ∧
      Inv header (carveBlocks 24 B a s d) { h with mem := m' } (carve 24 T a s d) R' := by
  have hrep := hinv.rep
  -- The size is a number of whole words already.
  have hround : alignUp d 4 = d := by
    rw [alignUp_four d hlt, if_pos (by omega), wholeWords]
    omega
  have hfind : findBlock header h.mem d (2 ^ 32) (h.mem.next header) =
      some ((R.find? fun node => word (h.mem.availableSize node + sizeofHeapSegmentDesc) >
        d).map (· + 8)) :=
    hrep.walk fun fuel p => by simp only [findBlock, decide_eq_true_eq]
  rw [separateFreeBlock, hround, hfind]
  cases hres : R.find? fun node => word (h.mem.availableSize node + sizeofHeapSegmentDesc) > d with
  | none => exact .inl rfl
  | some a =>
    obtain ⟨s, ha, hf⟩ := hrep.mem_ring a (List.mem_of_find?_eq_some hres)
    have hbnd := hrep.layout.bound ha
    have hoff := hrep.layout.wf.free_header ha hf
    have hlen : word (h.mem.availableSize a + sizeofHeapSegmentDesc) = s.len := by
      rw [hrep.availableSize_eq ha, sizeofHeapSegmentDesc, word_eq (by omega), Seg.len, hoff,
        Nat.add_comm]
    have hds : d < s.len := by
      have := List.find?_some hres
      rwa [hlen, decide_eq_true_eq] at this
    have hslen : s.len = s.hoff + s.avail := rfl
    have hleft : wordSub s.len d = s.len - d := wordSub_eq hds.le (by omega)
    obtain ⟨R', hinv'⟩ := hinv.separate ha hf hd hds h4
    refine .inr ⟨a, s, R', _, ha, hf, hds, ?_, hinv'⟩
    rw [Option.map_some, Option.map_some]
    simp only [hrep.layout.listEntry_eq ha, hlen, hleft, word_eq (show a + d < 2 ^ 32 by omega)]
    congr 4
    exact if_congr (by rw [HasRest, sizeofHeapSegmentDesc]; omega) rfl rfl

end Heap

end DemoOs
