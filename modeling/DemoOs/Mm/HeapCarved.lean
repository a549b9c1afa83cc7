import DemoOs.Mm.HeapBytes
import DemoOs.Mm.HeapFootprint
import DemoOs.Mm.HeapSeparate

/-!
# A range carved out of the heap

`separateFreeBlock` takes a range out of the heap, for good: no call of the clients afterwards reads
or writes it. This is so as long as the padding of an aligned allocation does not overflow
(`carvesOut_of_careful`).
-/

namespace DemoOs

namespace Heap

open Mem

/-- What the clients of the heap do, the owner of the range included. -/
inductive Call
  | allocate (n : ℕ)
  | allocateAligned (n k : ℕ)
  | free (p : ℕ)
  | store (x v : ℕ)

/-- The effect of a call, with what it returns. -/
def call (header : ℕ) (h : Heap) : Call → Option (ℕ × Heap)
  | .allocate n => allocate header h n
  | .allocateAligned n k => allocateAligned header h n (2 ^ k)
  | .free p => some (0, free header h p)
  | .store x v => some (0, { h with mem := h.mem.write x v })

def callStep (header : ℕ) (h : Heap) (c : Call) : Option Heap := (call header h c).map Prod.snd

/-- Payloads are given back that are in use, and the clients write to these and to the range `D`. -/
def Legal (blocks : List (ℕ × ℕ)) (D : Set ℕ) (h : Heap) : Call → Prop
  | .allocate n => n < 2 ^ 32
  | .allocateAligned n k => n < 2 ^ 32 ∧ k < 32
  | .free p => p = 0 ∨ ∃ a k n, UsedSeg ⟨h, blocks, []⟩ a k n ∧ p = a + k
  | .store x _ => x ∈ D ∨ ∃ a k n, UsedSeg ⟨h, blocks, []⟩ a k n ∧ a + k ≤ x ∧ x < a + k + n

/-- The computations for the segment an aligned allocation takes do not overflow. -/
def Careful (header : ℕ) (blocks : List (ℕ × ℕ)) (D : Set ℕ) (h : Heap) (c : Call) : Prop :=
  Legal blocks D h c ∧ ∀ n k, c = .allocateAligned n k →
    ∀ p, Takes header h.mem n (2 ^ k) p → NoOverflow h.mem n k (listEntry p)

/-- The blocks of the heap, the addresses from `ret` up to `e` having left the block `b`. -/
def remaining (blocks : List (ℕ × ℕ)) (b : ℕ × ℕ) (ret e : ℕ) : List (ℕ × ℕ) :=
  blocks.filter (fun c => c.1 ≠ b.1) ++ [(b.1, ret), (e, b.2)].filter fun c => c.1 < c.2

/-- The range from `ret` on, of `size` bytes, is carved out of a free segment with `n` bytes, up to
    `e`, the heap being `h` afterwards. The calls that follow are those which meet the guard `P`. -/
structure CarvesOut (header : ℕ) (st : State) (size : ℕ)
    (P : List (ℕ × ℕ) → Set ℕ → Heap → Call → Prop)
    (b : ℕ × ℕ) (n e ret : ℕ) (h : Heap) : Prop where
  free : FreeSeg st ret n
  range : b.1 ≤ ret ∧ ret + size ≤ e ∧ e ≤ ret + 24 + n ∧ e ≤ b.2
  wellFormed : WellFormed header ⟨h, remaining st.blocks b ret e, []⟩
  used : ∀ c k n, UsedSeg ⟨h, remaining st.blocks b ret e, []⟩ c k n ↔ UsedSeg st c k n
  /-- No segment remaining is in the range, nor the header of the free ring. -/
  disjoint : (header + 8 ≤ ret ∨ ret + size ≤ header) ∧
    ∀ b' ∈ remaining st.blocks b ret e, ∀ c, InChain h.mem b'.1 c →
      c + h.mem.headerOffset c + h.mem.availableSize c ≤ ret ∨ ret + size ≤ c
  /-- No link of them leads into it. -/
  links : (∀ x ∈ [h.mem.prev header, h.mem.next header], x ∉ Set.Ico ret (ret + size)) ∧
    ∀ b' ∈ remaining st.blocks b ret e, ∀ c, InChain h.mem b'.1 c →
      ∀ x ∈ [h.mem.left c, h.mem.right c, h.mem.prev (doubleList c), h.mem.next (doubleList c)],
        x ∉ Set.Ico ret (ret + size)
  /-- No call reads or writes it, but the stores of its owner. -/
  unharmed : ∀ h', Run (callStep header)
      (P (remaining st.blocks b ret e) (Set.Ico ret (ret + size))) h h' →
    ∀ c, P (remaining st.blocks b ret e) (Set.Ico ret (ret + size)) h' c → (∀ x v, c ≠ .store x v) →
      SparesHeap (Set.Ico ret (ret + size)) (fun h => call header h c) h'

variable {header : ℕ} {blocks : List (ℕ × ℕ)} {T : Tiling} {m : Mem} {h h' : Heap} {R : List ℕ}
    {a x : ℕ} {s : Seg}
  {D : Set ℕ} [DecidablePred (· ∈ D)] {c : Call}

/-! ## The calls -/

theorem Inv.used_of_usedSeg (hinv : Inv header {b | b ∈ blocks} h T R) {k n : ℕ}
    (hused : UsedSeg ⟨h, blocks, []⟩ a k n) : ∃ s, T a = some s ∧ s.free = false ∧ s.hoff = k ∧
    s.avail = n := by
  have hiff : UsedSeg ⟨h, blocks, []⟩ a k n ↔ T.used a = some (k, n) := Inv.usedSeg_iff hinv
  exact Tiling.used_eq_some.1 (hiff.1 hused)

/-- The owner of `D` may store what it likes there. -/
theorem Inv.store_apart {B : Set (ℕ × ℕ)} (hinv : Inv header B h T R) (hD : Apart header T D)
    (hx : x ∈ D) (v : ℕ) :
    Inv header B { h with mem := h.mem.write x v } T R := by
  have heq : h.mem.write x v = D.piecewise (h.mem.write x v) h.mem := by
    funext y
    by_cases hy : y ∈ D
    · rw [Set.piecewise_eq_of_mem _ _ _ hy]
    · have hne : y ≠ x := fun e => hy (e ▸ hx)
      rw [Set.piecewise_eq_of_notMem _ _ _ hy, Mem.write_apply, if_neg hne]
  rw [heq]
  exact hinv.piecewise hD _

/-- A call leaves the heap well-formed. -/
theorem Inv.call (hinv : Inv header {b | b ∈ blocks} h T R) (hD : Outside header {b | b ∈ blocks} D)
    (hc : Careful header blocks D h c) {r : ℕ} (hcall : call header h c = some (r, h')) :
    ∃ T' R', Inv header {b | b ∈ blocks} h' T' R' := by
  obtain ⟨hlegal, hcareful⟩ := hc
  cases c with
  | allocate n =>
    obtain ⟨p, h₂, heq, hcase⟩ := allocate_spec hinv n
    obtain ⟨-, rfl⟩ := Prod.mk.inj (Option.some.inj (heq.symm.trans hcall))
    rcases hcase with ⟨-, rfl, -⟩ | ⟨a, s, avail, T', R', -, -, -, -, -, hinv', -⟩
    exacts [⟨T, R, hinv⟩, ⟨T', R', hinv'⟩]
  | allocateAligned n k =>
    obtain ⟨hn, hk⟩ := hlegal
    cases hfind : R.find? fun a => Suffices h.mem n (2 ^ k) a with
    | none =>
      obtain ⟨heq, -⟩ := hinv.rep.allocateAligned_of_none hfind
      obtain ⟨-, rfl⟩ := Prod.mk.inj (Option.some.inj (heq.symm.trans hcall))
      exact ⟨T, R, hinv⟩
    | some a =>
      obtain ⟨heq, htakes⟩ := hinv.rep.allocateAligned_of_some hfind
      obtain ⟨s, ha, hf⟩ := hinv.rep.mem_ring a (List.mem_of_find?_eq_some hfind)
      obtain ⟨-, rfl⟩ := Prod.mk.inj (Option.some.inj (heq.symm.trans hcall))
      have hno := hcareful n k rfl (a + 8) ((htakes _).2 rfl)
      rw [hinv.rep.layout.listEntry_eq ha] at hno
      have hsuff : Suffices h.mem n (2 ^ k) a := by simpa using List.find?_some hfind
      have hsafe : Safe header ⟨h, blocks, []⟩ n k a _ _ := Inv.safe hinv ha hf hn hk hno hsuff
      exact hsafe.wellFormed
  | free p =>
    obtain ⟨-, rfl⟩ := Prod.mk.inj (Option.some.inj hcall)
    rcases hlegal with rfl | ⟨a, k, n, hused, rfl⟩
    · exact ⟨T, R, (free_null header h).symm ▸ hinv⟩
    · obtain ⟨s, ha, hu, hoff, -⟩ := hinv.used_of_usedSeg hused
      obtain ⟨T', R', hinv', -⟩ := free_spec hinv ha hu
      exact ⟨T', R', hoff ▸ hinv'⟩
  | store x v =>
    obtain ⟨-, rfl⟩ := Prod.mk.inj (Option.some.inj hcall)
    -- A store lies outside of the heap, or in a block in use.
    rcases hlegal with hx | ⟨a, k, n, hused, h₁, h₂⟩
    · exact ⟨T, R, hinv.store_apart (hD.apart hinv.rep.layout) hx v⟩
    · obtain ⟨s, ha, -, hoff, havail⟩ := hinv.used_of_usedSeg hused
      exact ⟨T, R, hinv.store ha v (by omega) (by omega)⟩

/-- A call spares what is outside of the heap. -/
theorem Inv.spares_call (hinv : Inv header {b | b ∈ blocks} h T R)
    (hD : Outside header {b | b ∈ blocks} D)
    (hc : Careful header blocks D h c) (hstore : ∀ x v, c ≠ .store x v) :
    SparesHeap D (fun h => Heap.call header h c) h := by
  obtain ⟨hlegal, hcareful⟩ := hc
  cases c with
  | allocate n => exact hinv.spares_allocate hD n
  | allocateAligned n k => exact hinv.spares_allocateAligned hD hlegal.2 (hcareful n k rfl)
  | free p =>
    intro g
    rcases hlegal with rfl | ⟨a, k, n, hused, rfl⟩
    · simp only [Heap.call, free_null]
      rfl
    · obtain ⟨s, ha, hu, hoff, -⟩ := hinv.used_of_usedSeg hused
      have hs := hinv.spares_free (hD.apart hinv.rep.layout) ha hu g
      rw [hoff] at hs
      exact congrArg (fun h => some (0, h)) hs
  | store x v => exact absurd rfl (hstore x v)

theorem Inv.run (hinv : Inv header {b | b ∈ blocks} h T R) (hD : Outside header {b | b ∈ blocks} D)
    (hrun : Run (callStep header) (Careful header blocks D) h h') :
    ∃ T' R', Inv header {b | b ∈ blocks} h' T' R' := by
  refine hrun.invariant (I := fun h => ∃ T R, Inv header {b | b ∈ blocks} h T R) ?_ ⟨T, R, hinv⟩
  rintro h₁ c h₂ ⟨T₁, R₁, hinv₁⟩ hc hstep
  obtain ⟨⟨r, h₃⟩, hcall, rfl⟩ := Option.map_eq_some_iff.1 hstep
  exact hinv₁.call hD hc hcall

/-! ## The range -/

/-- The blocks remaining are those of the tiling the range is carved out of. -/
theorem remaining_eq (blocks : List (ℕ × ℕ)) (s : Seg) (a d : ℕ) :
    {b | b ∈ remaining blocks (s.lo, s.hi) a (Tiling.restStart 24 a s d)} =
      Tiling.carveBlocks 24 {b | b ∈ blocks} a s d := by
  ext b
  simp only [remaining, Tiling.carveBlocks, Set.mem_ofPred_eq, List.mem_append, List.mem_filter,
    List.mem_cons, List.not_mem_nil, or_false, decide_eq_true_eq]
  constructor
  · rintro (h | ⟨rfl | rfl, h⟩)
    exacts [.inl h, .inr (.inl ⟨rfl, h⟩), .inr (.inr ⟨rfl, h⟩)]
  · rintro (h | ⟨rfl, h⟩ | ⟨rfl, h⟩)
    exacts [.inl h, .inr ⟨.inl rfl, h⟩, .inr ⟨.inr rfl, h⟩]

omit [DecidablePred (· ∈ D)] in
/-- The links of a segment lead to segments, and to the header of the free ring. -/
theorem Inv.links_notMem {B : Set (ℕ × ℕ)} (hinv : Inv header B h T R) (hD : Outside header B D)
    (h₀ : 0 ∉ D)
    (ha : T a = some s) :
    ∀ x ∈ [h.mem.left a, h.mem.right a, h.mem.prev (doubleList a), h.mem.next (doubleList a)],
      x ∉ D := by
  have hrep := hinv.rep
  have hapart := hD.apart hrep.layout
  have hseg : ∀ {c u}, T c = some u → c ∉ D := fun hc => by
    have := hrep.layout.bound hc
    exact hapart.seg hc 0 (by omega)
  have hleft : h.mem.left a ∉ D := by
    rw [Mem.left, (hrep.seg ha).left]
    by_cases hl : s.left = 0
    · rwa [hl]
    · obtain ⟨t, ht, -⟩ := hrep.layout.wf.left ha hl
      exact hseg ht
  have hright : h.mem.right a ∉ D := by
    rw [hrep.right_eq ha]
    by_cases hr : s.right = 0
    · rwa [hr]
    · obtain ⟨-, t, ht, -⟩ := hrep.layout.wf.right ha hr
      exact hseg ht
  -- A free segment is linked to its neighbours in the ring, one in use has null links.
  have hring : h.mem.prev (doubleList a) ∉ D ∧ h.mem.next (doubleList a) ∉ D := by
    rw [hrep.layout.doubleList_eq ha]
    cases hf : s.free with
    | true =>
      have haC : a + 8 ∈ ((header :: R.map (· + 8) : List ℕ) : Cycle ℕ) := by simp [hinv.all ha hf]
      obtain ⟨p, hp, hprev⟩ := hrep.ring.exists_prev haC
      obtain ⟨q, hq, hnext⟩ := hrep.ring.exists_next haC
      rw [(ptr_eq_some.1 hprev.2).1, (ptr_eq_some.1 hnext.1).1]
      exact ⟨(hrep.apart_ring hapart hp).1, (hrep.apart_ring hapart hq).1⟩
    | false =>
      have hbnd := hrep.layout.bound ha
      obtain ⟨h₁, h₂⟩ := hrep.null ha hf
      rw [Mem.prev, word_eq (by omega), Mem.next, h₁, h₂]
      exact ⟨h₀, h₀⟩
  simp only [List.mem_cons, List.not_mem_nil, or_false]
  rintro x (rfl | rfl | rfl | rfl)
  exacts [hleft, hright, hring.1, hring.2]

omit [DecidablePred (· ∈ D)] in
theorem Rep.header_links_notMem {B : Set (ℕ × ℕ)} (hrep : Rep header B m T R)
    (hD : Outside header B D) :
    ∀ x ∈ [m.prev header, m.next header], x ∉ D := by
  have hapart := hD.apart hrep.layout
  obtain ⟨p, hp, hprev⟩ := hrep.ring.exists_prev (x := header) (by simp)
  obtain ⟨q, hq, hnext⟩ := hrep.ring.exists_next (x := header) (by simp)
  simp only [List.mem_cons, List.not_mem_nil, or_false]
  rintro x (rfl | rfl)
  · rw [(ptr_eq_some.1 hprev.2).1]
    exact (hrep.apart_ring hapart hp).1
  · rw [(ptr_eq_some.1 hnext.1).1]
    exact (hrep.apart_ring hapart hq).1

/-- The first bytes of a free segment, which are no longer in the heap, are carved out of it. -/
theorem Inv.carvesOut (hinv : Inv header {b | b ∈ blocks} h T R) (ha : T a = some s)
    (hf : s.free) {d : ℕ}
    (hd : 0 < d) (hds : d < s.len) {T' : Tiling} {R' : List ℕ} (hT' : T'.used = T.used)
    (hinv' : Inv header
      {b | b ∈ remaining blocks (s.lo, s.hi) a (Tiling.restStart 24 a s d)} h' T' R') :
    CarvesOut header ⟨h, blocks, []⟩ d (Careful header) (s.lo, s.hi) s.avail
      (Tiling.restStart 24 a s d) a h' := by
  have hlay := hinv.rep.layout
  have hrep' := hinv'.rep
  obtain ⟨hself, hlo, hhi⟩ := hlay.wf.block ha
  have hbnd := hlay.bound ha
  have hoff := hlay.wf.free_header ha hf
  have happ := hlay.apart _ hself
  have hrange : a + d ≤ Tiling.restStart 24 a s d ∧ Tiling.restStart 24 a s d ≤ a + s.len := by
    rw [Tiling.restStart]
    split_ifs <;> omega
  -- Nothing that remains meets the range carved out, the header of the ring included.
  have hout : Outside header {b | b ∈ remaining blocks (s.lo, s.hi) a (Tiling.restStart 24 a s d)}
      (Set.Ico a (a + d)) := by
    refine ⟨⟨?_, ?_⟩, fun b hb x hx => ?_⟩
    · rw [Set.mem_Ico]
      simp only at happ
      omega
    · rw [Set.mem_Ico]
      simp only at happ
      omega
    · rw [remaining_eq] at hb
      exact hlay.wf.carveBlocks_apart (by decide) ha hds hb hx.1 hx.2
  have hzero : (0 : ℕ) ∉ Set.Ico a (a + d) := by
    rw [Set.mem_Ico]
    omega
  have hlen : s.len = 24 + s.avail := by rw [Seg.len, hoff]
  constructor
  case free =>
    have hiff : FreeSeg ⟨h, blocks, []⟩ a s.avail ↔ _ := Inv.freeSeg_iff hinv
    exact hiff.2 ⟨s, ha, hf, rfl⟩
  case range => exact ⟨hlo, hrange.1, by omega, by simp only; omega⟩
  case wellFormed => exact ⟨T', R', hinv'⟩
  case used =>
    intro c k n
    have hiff : UsedSeg ⟨h, blocks, []⟩ c k n ↔ T.used c = some (k, n) := Inv.usedSeg_iff hinv
    rw [hiff, ← hT']
    exact Inv.usedSeg_iff hinv'
  case disjoint =>
    refine ⟨by simp only at happ; omega, fun b hb c hc => ?_⟩
    obtain ⟨u, hu, -⟩ := hrep'.of_inChain hb hc
    have hcarved := hout.seg hrep'.layout hu
    rw [hrep'.headerOffset_eq hu, hrep'.availableSize_eq hu]
    have h₁ := hcarved a ⟨le_rfl, by omega⟩
    have h₂ := hcarved c
    rw [Set.mem_Ico] at h₂
    have := hrep'.layout.bound hu
    omega
  case links =>
    refine ⟨hrep'.header_links_notMem hout, fun b hb c hc => ?_⟩
    obtain ⟨u, hu, -⟩ := hrep'.of_inChain hb hc
    exact hinv'.links_notMem hout hzero hu
  -- This is the one part about later runs, each step of which keeps the invariant.
  case unharmed =>
    intro h₂ hrun c hc hstore
    obtain ⟨T₂, R₂, hinv₂⟩ := hinv'.run hout hrun
    exact hinv₂.spares_call hout hc hstore

/-- **`separateFreeBlock` carves out cleanly**, as long as the computations of the aligned
    allocations that follow do not overflow. -/
theorem carvesOut_of_careful {size : ℕ} (hwf : WellFormed header ⟨h, blocks, []⟩) (hdvd : 16 ∣ size)
    (hpos : 0 < size) (hlt : size < 2 ^ 32) :
    ∃ ret h', separateFreeBlock header h size = some (ret, h') ∧
      (ret = 0 → h' = h) ∧ (ret ≠ 0 → ∃ b ∈ blocks, ∃ n e,
        CarvesOut header ⟨h, blocks, []⟩ size (Careful header) b n e ret h') := by
  obtain ⟨T, R, hinv⟩ := hwf
  have h4 : 4 ∣ size := (by decide : 4 ∣ 16).trans hdvd
  rcases separateFreeBlock_spec hinv (Nat.le_of_dvd hpos hdvd) h4 hlt with
    heq | ⟨a, s, R', m', ha, hf, hds, heq, hinv'⟩
  · exact ⟨0, h, heq, fun _ => rfl, fun h₀ => absurd rfl h₀⟩
  · have hwf := hinv.rep.layout.wf
    have hbnd := hinv.rep.layout.bound ha
    rw [← remaining_eq] at hinv'
    refine ⟨a, _, heq, fun h₀ => by omega, fun _ => ⟨(s.lo, s.hi), (hwf.block ha).1, s.avail,
      Tiling.restStart 24 a s size, ?_⟩⟩
    exact hinv.carvesOut ha hf hpos hds (hwf.carve_used (by decide) ha hpos hds hf) hinv'

/-- Sixteen bytes of a heap of one block. -/
theorem carvesOut_sixteen : ∃ h', ∃ b ∈ [(1000, 2000)], ∃ n e,
    CarvesOut 64 ⟨addHeapBlock 64 ⟨fun _ => 0, 0, 0⟩ 1000 2000, [(1000, 2000)], []⟩ 16
      (Careful 64) b n e 1000
      h' := by
  obtain ⟨ret, h', heq, -, hcarves⟩ := carvesOut_of_careful wellFormed_block (by decide : 16 ∣ 16)
    (by decide) (by decide)
  have hret :
      (separateFreeBlock 64 (addHeapBlock 64 ⟨fun _ => 0, 0, 0⟩ 1000 2000) 16).map Prod.fst =
      some 1000 := by
    decide +kernel
  rw [heq] at hret
  obtain rfl := Option.some.inj hret
  exact ⟨h', hcarves (by decide)⟩

/-- A heap of two free blocks. -/
theorem wellFormed_blocks :
    WellFormed 64 ⟨addHeapBlock 64 (addHeapBlock 64 ⟨fun _ => 0, 0, 0⟩ 1000 2000) 4096 8192,
      [(4096, 8192), (1000, 2000)], []⟩ := by
  obtain ⟨T, R, hinv⟩ := wellFormed_block
  have hr : ValidRange 64 {b | b ∈ [(1000, 2000)]} 4096 8192 := by
    constructor <;> simp
  obtain ⟨st', hstep, T', R', hrun⟩ := (hinv.runInv rfl).addHeapBlock (by decide) hr
  obtain rfl := Option.some.inj hstep
  exact ⟨T', R', hrun.inv⟩

/-- A page is asked for of the first block, which has none: it is taken in the range carved out of
    the second one. -/
theorem not_carvesOut :
    WellFormed 64 ⟨addHeapBlock 64 (addHeapBlock 64 ⟨fun _ => 0, 0, 0⟩ 1000 2000) 4096 8192,
      [(4096, 8192), (1000, 2000)], []⟩ ∧
    ¬∃ ret h',
      separateFreeBlock 64
      (addHeapBlock 64 (addHeapBlock 64 ⟨fun _ => 0, 0, 0⟩ 1000 2000) 4096 8192) 1200 =
        some (ret, h') ∧
      (ret = 0 → h' = addHeapBlock 64 (addHeapBlock 64 ⟨fun _ => 0, 0, 0⟩ 1000 2000) 4096 8192) ∧
      (ret ≠ 0 → ∃ b ∈ [(4096, 8192), (1000, 2000)], ∃ n e,
        CarvesOut 64 ⟨addHeapBlock 64 (addHeapBlock 64 ⟨fun _ => 0, 0, 0⟩ 1000 2000) 4096 8192,
          [(4096, 8192), (1000, 2000)], []⟩ 1200 Legal b n e ret h') := by
  refine ⟨wellFormed_blocks, ?_⟩
  rintro ⟨ret, h', heq, -, hcarves⟩
  -- The word at 4104 is written to.
  have hrun :
      (separateFreeBlock 64
      (addHeapBlock 64 (addHeapBlock 64 ⟨fun _ => 0, 0, 0⟩ 1000 2000) 4096 8192)
      1200).bind (fun r => (allocateAligned 64 r.2 8 (2 ^ 12)).map fun q =>
        (r.1, r.2.mem 4104, q.2.mem 4104)) =
      some (4096, 0, 4072) := by
    decide +kernel
  rw [heq] at hrun
  obtain ⟨⟨p, h₂⟩, halloc, hmem⟩ := Option.map_eq_some_iff.1 hrun
  obtain ⟨rfl, h₀, h₁⟩ : 4096 = ret ∧ h'.mem 4104 = 0 ∧ h₂.mem 4104 = 4072 := by
    simpa [eq_comm] using hmem
  obtain ⟨b, -, n, e, hc⟩ := hcarves (by decide)
  have hspares :=
    hc.unharmed h' .refl (.allocateAligned 8 12) ⟨by decide, by decide⟩ (by simp) h'.mem
  have hsame : h'.overlay (Set.Ico 4096 (4096 + 1200)) h'.mem = h' := by
    rw [overlay, Set.piecewise_same]
  have hcall : call 64 h' (.allocateAligned 8 12) = some (p, h₂) := halloc
  simp only [hsame, hcall, Option.map_some, Option.some.injEq, Prod.map_apply,
    Prod.mk.injEq] at hspares
  have hword := congrFun (congrArg Heap.mem hspares.2) 4104
  rw [overlay] at hword
  simp only [h₁] at hword
  rw [Set.piecewise_eq_of_mem _ _ _ (by decide), h₀] at hword
  exact absurd hword (by decide)

end Heap

end DemoOs
