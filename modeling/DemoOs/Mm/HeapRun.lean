import DemoOs.Lib.Run
import DemoOs.Mm.HeapInv

/-!
# Runs of the heap

The heap with its clients: ranges are added to it, blocks are allocated and given back, and their
owners write to them. What is seen of a heap in memory:

* `InChain`: the segments of a physical block, following `right` pointers from its start;
* `Consistent`: the chains tile the blocks, the free ring holds the segments with list links, no two
  neighbours are free, and the payloads of the allocations alive are apart from each other and from
  all descriptors.

A heap whose first block is added before the first allocation, none at the null address, stays
consistent (`consistent_of_run`), and when all that was allocated is given back it is as it was
(`freeSeg_iff_of_run`).
-/

namespace DemoOs

namespace Heap

open Mem

/-- The segments of the physical block starting at `lo`. -/
inductive InChain (m : Mem) (lo : ℕ) : ℕ → Prop
  | start : InChain m lo lo
  | right {a : ℕ} : InChain m lo a → m.right a ≠ 0 → InChain m lo (m.right a)

/-- The segment is free: it has list links. -/
def IsFree (m : Mem) (a : ℕ) : Prop := m.next (doubleList a) ≠ 0

instance (m : Mem) (a : ℕ) : Decidable (IsFree m a) := inferInstanceAs (Decidable (_ ≠ _))

/-- The segment of a payload, found as `free` finds it. -/
def segmentOf (m : Mem) (p : ℕ) : ℕ := wordSub p (m (wordSub p 4))

/-- The length of a payload. -/
def payloadSize (m : Mem) (p : ℕ) : ℕ := m.availableSize (segmentOf m p)

/-- The heap, the ranges it was given, and the allocations alive: their payload and the size
    asked for. -/
structure State where
  heap : Heap
  blocks : List (ℕ × ℕ)
  live : List (ℕ × ℕ)

/-- What the clients of the heap do. -/
inductive Op
  | addHeapBlock (l r : ℕ)
  | allocate (n : ℕ)
  | free (p : ℕ)
  | store (x v : ℕ)

/-- The effect of an operation; none if it does not return. -/
def step (header : ℕ) (st : State) : Op → Option State
  | .addHeapBlock l r =>
    some { st with heap := addHeapBlock header st.heap l r, blocks := (l, r) :: st.blocks }
  | .allocate n => (allocate header st.heap n).map fun (p, h) =>
    { st with heap := h, live := if p = 0 then st.live else (p, n) :: st.live }
  | .free p =>
    some { st with heap := free header st.heap p, live := st.live.filter fun e => e.1 ≠ p }
  | .store x v => some { st with heap := { st.heap with mem := st.heap.mem.write x v } }

/-- The operations clients may use: ranges apart, payloads alive. -/
def Admissible (header : ℕ) (st : State) : Op → Prop
  | .addHeapBlock l r => ValidRange header {b | b ∈ st.blocks} l r
  | .allocate _ => True
  | .free p => p = 0 ∨ ∃ e ∈ st.live, e.1 = p
  | .store x _ => ∃ e ∈ st.live, e.1 ≤ x ∧ x < e.1 + payloadSize st.heap.mem e.1

/-- The operations clients may use of a heap in service: it has a block before the first allocation,
    and no block at the null address. -/
def InService (header : ℕ) (st : State) (op : Op) : Prop :=
  Admissible header st op ∧ match op with
    | .addHeapBlock l _ => 0 < l
    | .allocate _ => st.blocks ≠ []
    | _ => True

instance (header : ℕ) (bs : List (ℕ × ℕ)) (l r : ℕ) :
    Decidable (ValidRange header {b | b ∈ bs} l r) :=
  decidable_of_iff (4 ∣ l ∧ 4 ∣ r ∧ l + 24 ≤ r ∧ r < 2 ^ 32 ∧
      (∀ b ∈ bs, b.2 ≤ l ∨ r ≤ b.1) ∧ (header + 8 ≤ l ∨ r ≤ header))
    ⟨fun ⟨h₁, h₂, h₃, h₄, h₅, h₆⟩ => ⟨h₁, h₂, h₃, h₄, h₅, h₆⟩,
      fun h => ⟨h.aligned_from, h.aligned_to, h.size, h.lt, h.apart, h.header⟩⟩

instance (header : ℕ) (st : State) : ∀ op, Decidable (Admissible header st op)
  | .addHeapBlock _ _ => inferInstanceAs (Decidable (ValidRange _ _ _ _))
  | .allocate _ => inferInstanceAs (Decidable True)
  | .free p => inferInstanceAs (Decidable (p = 0 ∨ ∃ e ∈ st.live, e.1 = p))
  | .store x _ => inferInstanceAs
    (Decidable (∃ e ∈ st.live, e.1 ≤ x ∧ x < e.1 + payloadSize st.heap.mem e.1))

instance (header : ℕ) (st : State) : ∀ op, Decidable (InService header st op)
  | .addHeapBlock _ _ => inferInstanceAs (Decidable (_ ∧ 0 < _))
  | .allocate _ => inferInstanceAs (Decidable (_ ∧ st.blocks ≠ []))
  | .free _ => inferInstanceAs (Decidable (_ ∧ True))
  | .store _ _ => inferInstanceAs (Decidable (_ ∧ True))

/-- A consistent heap. -/
structure Consistent (header : ℕ) (st : State) : Prop where
  /-- A segment ends where its right neighbour starts, which knows it as its left neighbour. -/
  chain : ∀ b ∈ st.blocks, ∀ a, InChain st.heap.mem b.1 a → st.heap.mem.right a ≠ 0 →
    a + st.heap.mem.headerOffset a + st.heap.mem.availableSize a = st.heap.mem.right a ∧
      st.heap.mem.left (st.heap.mem.right a) = a
  /-- The last segment of a block ends where the block ends. -/
  last : ∀ b ∈ st.blocks, (∃ a, InChain st.heap.mem b.1 a ∧ st.heap.mem.right a = 0) ∧
    ∀ a, InChain st.heap.mem b.1 a → st.heap.mem.right a = 0 →
      a + st.heap.mem.headerOffset a + st.heap.mem.availableSize a = b.2
  /-- The free ring is a ring, of the segments with list links. -/
  ring : st.blocks ≠ [] → ∃ R : List ℕ, st.heap.mem.linksOf.IsRing ↑(header :: R.map doubleList) ∧
    ∀ a, a ∈ R ↔ ∃ b ∈ st.blocks, InChain st.heap.mem b.1 a ∧ IsFree st.heap.mem a
  /-- A segment has both list links or none. -/
  links : ∀ b ∈ st.blocks, ∀ a, InChain st.heap.mem b.1 a →
    (IsFree st.heap.mem a ↔ st.heap.mem.prev (doubleList a) ≠ 0)
  coalesced : ∀ b ∈ st.blocks, ∀ a, InChain st.heap.mem b.1 a → st.heap.mem.right a ≠ 0 →
    ¬(IsFree st.heap.mem a ∧ IsFree st.heap.mem (st.heap.mem.right a))
  aligned : ∀ b ∈ st.blocks, ∀ a, InChain st.heap.mem b.1 a → 4 ∣ a
  /-- Payloads lie in a block, and are at least as long as was asked for, if rounding the size up
      to a word did not overflow. -/
  payload : ∀ e ∈ st.live, (∃ b ∈ st.blocks, b.1 ≤ e.1 ∧
    e.1 + payloadSize st.heap.mem e.1 ≤ b.2) ∧
    (e.2 + 3 < 2 ^ 32 → e.2 ≤ payloadSize st.heap.mem e.1)
  disjoint : st.live.Pairwise fun e f => e.1 + payloadSize st.heap.mem e.1 ≤ f.1 ∨
    f.1 + payloadSize st.heap.mem f.1 ≤ e.1
  header_disjoint : ∀ e ∈ st.live, ∀ b ∈ st.blocks, ∀ a, InChain st.heap.mem b.1 a →
    a + st.heap.mem.headerOffset a ≤ e.1 ∨ e.1 + payloadSize st.heap.mem e.1 ≤ a

/-! ## Chains and tilings -/

variable {header : ℕ} {B : Set (ℕ × ℕ)} {T : Tiling} {R : List ℕ} {m : Mem} {h : Heap}

/-- The segments of a chain are those of the tiling in that block. -/
theorem Rep.of_inChain (hrep : Rep header B m T R) {b : ℕ × ℕ} (hb : b ∈ B) {a : ℕ}
    (ha : InChain m b.1 a) : ∃ s, T a = some s ∧ s.lo = b.1 ∧ s.hi = b.2 := by
  induction ha with
  | start => exact hrep.layout.wf.start hb
  | right _ hne ih =>
    obtain ⟨s, hs, hlo, hhi⟩ := ih
    rw [hrep.right_eq hs] at hne ⊢
    obtain ⟨-, t, ht, -, hlo', hhi'⟩ := hrep.layout.wf.right hs hne
    exact ⟨t, ht, hlo'.trans hlo, hhi'.trans hhi⟩

/-- Every segment is in the chain of its block: its left neighbours lead to the start of it. -/
theorem Rep.inChain (hrep : Rep header B m T R) {a : ℕ} {s : Seg} (ha : T a = some s) :
    InChain m s.lo a := by
  have hwf := hrep.layout.wf
  induction a using Nat.strong_induction_on generalizing s with | _ a ih
  by_cases h₀ : s.left = 0
  · rw [(hwf.left_eq_zero ha).1 h₀]
    exact .start
  · obtain ⟨t, ht, hta, hend, hlo, -⟩ := hwf.left_end ha h₀
    have hlt : s.left < a := by
      have := hwf.header ht
      rw [Seg.len] at hend
      omega
    have hright := hrep.right_eq ht
    rw [hta] at hright
    have := (ih _ hlt ht).right (by rw [hright]; exact (hrep.layout.bound ha).1.ne')
    rwa [hright, hlo] at this

/-- Every block has a last segment. -/
theorem Rep.exists_last (hrep : Rep header B m T R) {a : ℕ} {s : Seg} (ha : T a = some s) :
    ∃ c, InChain m s.lo c ∧ m.right c = 0 := by
  have hwf := hrep.layout.wf
  induction hn : s.hi - a using Nat.strong_induction_on generalizing a s with | _ n ih
  by_cases h₀ : s.right = 0
  · exact ⟨a, hrep.inChain ha, (hrep.right_eq ha).trans h₀⟩
  · obtain ⟨hend, t, ht, -, hlo, hhi⟩ := hwf.right ha h₀
    have hlt : t.hi - s.right < n := by
      have h₁ := (hwf.block ht).2.2
      have h₂ := hwf.header ha
      have h₃ := hwf.header ht
      rw [Seg.len] at h₁ hend
      omega
    obtain ⟨c, hc, hc₀⟩ := ih _ hlt ht rfl
    exact ⟨c, hlo ▸ hc, hc₀⟩

theorem Inv.isFree_iff (hinv : Inv header B h T R) {a : ℕ} {s : Seg} (ha : T a = some s) :
    IsFree h.mem a ↔ s.free := (hinv.rep.links_ne_zero hinv.all ha).1

/-- The payload of a segment in use, as `free` finds it. -/
theorem Inv.segmentOf_eq (hinv : Inv header B h T R) {a : ℕ} {s : Seg} (ha : T a = some s) :
    segmentOf h.mem (a + s.hoff) = a ∧ payloadSize h.mem (a + s.hoff) = s.avail := by
  obtain ⟨-, hoff, hlt⟩ := hinv.rep.layout.bound ha
  have hseg : segmentOf h.mem (a + s.hoff) = a := by
    rw [segmentOf, wordSub_eq (b := 4) (by omega) (by omega), (hinv.rep.seg ha).tag,
      wordSub_eq (by omega) (by omega), Nat.add_sub_cancel]
  exact ⟨hseg, by rw [payloadSize, hseg, hinv.rep.availableSize_eq ha]⟩

/-- The payload of an allocation, below the end of the memory. -/
theorem Inv.payload_eq (hinv : Inv header B h T R) {a n : ℕ} (ha : T.used a = some (24, n)) :
    payloadSize h.mem (a + 24) = n ∧ a + 24 + n < 2 ^ 32 := by
  obtain ⟨s, hs, -, hoff, havail⟩ := Tiling.used_eq_some.1 ha
  have hsize := (hinv.segmentOf_eq hs).2
  have hbound := (hinv.rep.layout.bound hs).2.2
  simp only at hoff havail
  rw [hoff, havail] at hsize hbound
  exact ⟨hsize, hbound⟩

/-! ## The invariant of a run -/

/-- The heap keeps its invariant, the allocations alive being segments in use, and the other
    segments in use those of the beginning. -/
structure RunInv (header : ℕ) (used₀ : ℕ → Option (ℕ × ℕ)) (st : State) (T : Tiling)
    (R : List ℕ) : Prop where
  inv : Inv header {b | b ∈ st.blocks} st.heap T R
  live : ∀ e ∈ st.live, ∃ a avail, e.1 = a + 24 ∧ T.used a = some (24, avail) ∧ used₀ a = none ∧
    (e.2 + 3 < 2 ^ 32 → e.2 ≤ avail)
  rest : ∀ a, (∀ e ∈ st.live, e.1 ≠ a + 24) → T.used a = used₀ a
  nodup : (st.live.map Prod.fst).Nodup

variable {used₀ : ℕ → Option (ℕ × ℕ)} {st st' : State}

theorem le_alignUp_four {n : ℕ} (hn : n + 3 < 2 ^ 32) : n ≤ alignUp n 4 := by
  rw [show (4 : ℕ) = 2 ^ 2 from rfl, alignUp_two_pow (by decide),
    word_eq (show n + (2 ^ 2 - 1) < 2 ^ 32 from hn)]
  omega

/-- A new allocation. -/
theorem RunInv.allocate (hrun : RunInv header used₀ st T R) (n : ℕ) :
    ∃ st', step header st (.allocate n) = some st' ∧ ∃ T' R', RunInv header used₀ st' T' R' := by
  obtain ⟨p, h', heq, hcase⟩ := allocate_spec hrun.inv n
  refine ⟨_, by rw [step, heq]; rfl, ?_⟩
  rcases hcase with ⟨rfl, rfl, -⟩ | ⟨a, s, avail, T', R', ha, hf, rfl, hle, -, hinv', hused⟩
  · exact ⟨T, R, by simpa using hrun⟩
  · have hnew : T.used a = none := Tiling.used_of_free ha hf
    -- The block is new: no live one starts there.
    have hfresh : ∀ e ∈ st.live, e.1 ≠ a + 24 := by
      rintro e he heq
      obtain ⟨c, k, hc, hck, -⟩ := hrun.live e he
      obtain rfl : c = a := by omega
      rw [hnew] at hck
      cases hck
    refine ⟨T', R', ?_⟩
    simp only [Nat.add_eq_zero_iff, OfNat.ofNat_ne_zero, and_false, if_false]
    refine ⟨hinv', fun e he => ?_, fun c hc => ?_, ?_⟩
    · rcases List.mem_cons.1 he with rfl | he'
      · refine ⟨a, avail, rfl, by rw [hused, Function.update_self], ?_,
          fun hn => (le_alignUp_four hn).trans hle⟩
        rw [← hrun.rest a hfresh, hnew]
      · obtain ⟨c, k, hc, hck, hrest⟩ := hrun.live e he'
        refine ⟨c, k, hc, ?_, hrest⟩
        rw [hused, Function.update_of_ne, hck]
        rintro rfl
        exact hfresh e he' hc
    · have hca : c ≠ a := by
        rintro rfl
        exact hc _ List.mem_cons_self rfl
      rw [hused, Function.update_of_ne hca]
      exact hrun.rest c fun e he => hc e (List.mem_cons_of_mem _ he)
    · rw [List.map_cons, List.nodup_cons]
      refine ⟨fun hmem => ?_, hrun.nodup⟩
      obtain ⟨e, he, heq⟩ := List.mem_map.1 hmem
      exact hfresh e he heq

/-- An allocation given back. -/
theorem RunInv.free (hrun : RunInv header used₀ st T R) {p : ℕ}
    (hp : p = 0 ∨ ∃ e ∈ st.live, e.1 = p) :
    ∃ st', step header st (.free p) = some st' ∧ ∃ T' R', RunInv header used₀ st' T' R' := by
  refine ⟨_, rfl, ?_⟩
  rcases hp with rfl | ⟨e, he, rfl⟩
  · -- Freeing null takes no block off the list, as no block starts there.
    have hlive : st.live.filter (fun e => e.1 ≠ 0) = st.live := by
      refine List.filter_eq_self.2 fun e he => ?_
      obtain ⟨a, -, ha, -⟩ := hrun.live e he
      simp only [ne_eq, decide_eq_true_eq]
      omega
    refine ⟨T, R, ?_⟩
    simp only [hlive, free_null]
    exact hrun
  · obtain ⟨a, avail, hea, hused, hnone, -⟩ := hrun.live e he
    obtain ⟨s, ha, hu, hoff, -⟩ := Tiling.used_eq_some.1 hused
    obtain ⟨T', R', hinv', -, hused'⟩ := free_spec hrun.inv ha hu
    simp only at hoff
    rw [hoff, ← hea] at hinv'
    refine ⟨T', R', hinv', fun f hf => ?_, fun c hc => ?_, ?_⟩
    · obtain ⟨hf, hne⟩ := List.mem_filter.1 hf
      obtain ⟨c, k, hfc, hck, hrest⟩ := hrun.live f hf
      refine ⟨c, k, hfc, ?_, hrest⟩
      rw [hused', Function.update_of_ne, hck]
      rintro rfl
      simp [hfc, hea] at hne
    · rw [hused']
      by_cases hca : c = a
      · rw [hca, Function.update_self, hnone]
      · rw [Function.update_of_ne hca]
        refine hrun.rest c fun f hf heq => ?_
        exact hc f (List.mem_filter.2 ⟨hf, by simp; omega⟩) heq
    · exact hrun.nodup.sublist (List.filter_sublist.map _)

theorem RunInv.store (hrun : RunInv header used₀ st T R) {x : ℕ} (v : ℕ)
    (hx : ∃ e ∈ st.live, e.1 ≤ x ∧ x < e.1 + payloadSize st.heap.mem e.1) :
    ∃ st', step header st (.store x v) = some st' ∧ RunInv header used₀ st' T R := by
  obtain ⟨e, he, h₁, h₂⟩ := hx
  obtain ⟨a, avail, hea, hused, -⟩ := hrun.live e he
  obtain ⟨s, ha, -, hoff, -⟩ := Tiling.used_eq_some.1 hused
  simp only at hoff
  have hsize := (hrun.inv.segmentOf_eq ha).2
  rw [hoff, ← hea] at hsize
  exact ⟨_, rfl, hrun.inv.store ha v (by omega) (by omega), hrun.live, hrun.rest, hrun.nodup⟩

theorem RunInv.addHeapBlock (hrun : RunInv header used₀ st T R) {l r : ℕ} (hl : 0 < l)
    (hr : ValidRange header {b | b ∈ st.blocks} l r) :
    ∃ st', step header st (.addHeapBlock l r) = some st' ∧
      ∃ T' R', RunInv header used₀ st' T' R' := by
  obtain ⟨hinv, hused⟩ := addHeapBlock_spec hrun.inv hl hr
  have hset : insert (l, r) {b | b ∈ st.blocks} = {b | b ∈ (l, r) :: st.blocks} := by
    ext b
    simp
  refine ⟨_, rfl, _, _, hset ▸ hinv, fun e he => ?_, fun a ha => ?_, hrun.nodup⟩
  · rw [hused]
    exact hrun.live e he
  · rw [hused]
    exact hrun.rest a ha

/-- The states of a heap in service, and of one without blocks yet. -/
def StateInv (header : ℕ) (used₀ : ℕ → Option (ℕ × ℕ)) (st : State) : Prop :=
  (∃ T R, RunInv header used₀ st T R) ∨
    st.blocks = [] ∧ st.live = [] ∧ st.heap.mem.next header = 0 ∧ used₀ = fun _ => none

/-- Operations on a heap in service return, and keep its invariant. -/
theorem StateInv.step (hpos : 0 < header) (hlt : header + 4 < 2 ^ 32)
    (hst : StateInv header used₀ st) {op : Op} (hop : InService header st op) :
    ∃ st', Heap.step header st op = some st' ∧ StateInv header used₀ st' := by
  obtain ⟨hadm, hserv⟩ := hop
  rcases hst with ⟨T, R, hrun⟩ | ⟨hb, hl, hnext, hnone⟩
  · cases op with
    | addHeapBlock l r =>
      exact (hrun.addHeapBlock hserv hadm).imp fun _ h => ⟨h.1, .inl h.2⟩
    | allocate n => exact (hrun.allocate n).imp fun _ h => ⟨h.1, .inl h.2⟩
    | free p => exact (hrun.free hadm).imp fun _ h => ⟨h.1, .inl h.2⟩
    | store x v => exact (hrun.store v hadm).imp fun _ h => ⟨h.1, .inl ⟨T, R, h.2⟩⟩
  · cases op with
    | addHeapBlock l r =>
      have hr : ValidRange header ∅ l r := by simpa [Admissible, hb] using hadm
      obtain ⟨hinv, hused⟩ := addHeapBlock_empty_spec hnext hpos hlt hserv hr
      refine ⟨_, rfl, .inl ⟨Tiling.addSeg 24 (fun _ => none) l r, [l], ?_, ?_, ?_, ?_⟩⟩
      · simpa [hb] using hinv
      · simp [hl]
      · intro a _
        rw [hused, hnone]
      · simp [hl]
    | allocate n => exact absurd hb hserv
    | free p =>
      obtain rfl : p = 0 := by simpa [Admissible, hl] using hadm
      refine ⟨_, rfl, .inr ⟨hb, by simp [hl], ?_, hnone⟩⟩
      rwa [free_null]
    | store x v => simp [Admissible, hl] at hadm

/-! ## Consistency -/

/-- The segment of an allocation alive. -/
theorem RunInv.live_seg (hrun : RunInv header used₀ st T R) {e : ℕ × ℕ} (he : e ∈ st.live) :
    ∃ a s, T a = some s ∧ e.1 = a + 24 ∧ s.hoff = 24 ∧ payloadSize st.heap.mem e.1 = s.avail ∧
      (e.2 + 3 < 2 ^ 32 → e.2 ≤ s.avail) := by
  obtain ⟨a, avail, hea, hused, -, hle⟩ := hrun.live e he
  obtain ⟨s, ha, -, hoff, havail⟩ := Tiling.used_eq_some.1 hused
  have hsize := (hrun.inv.segmentOf_eq ha).2
  simp only at hoff havail
  rw [hoff, ← hea] at hsize
  exact ⟨a, s, ha, hea, hoff, hsize, havail ▸ hle⟩

theorem RunInv.consistent (hrun : RunInv header used₀ st T R) : Consistent header st := by
  have hinv := hrun.inv
  have hrep := hinv.rep
  have hwf := hrep.layout.wf
  -- Each field is read off the tiling that the heap represents.
  refine
    { chain := fun b hb a ha hne => ?_
      last := fun b hb => ⟨?_, fun a ha h₀ => ?_⟩
      ring := fun _ => ⟨R, ?_, ?_⟩
      links := fun b hb a ha => ?_
      coalesced := fun b hb a ha hne => ?_
      aligned := fun b hb a ha => ?_
      payload := fun e he => ?_
      disjoint := ?_
      header_disjoint := fun e he b hb a ha => ?_ }
  · obtain ⟨s, hs, -⟩ := hrep.of_inChain hb ha
    rw [hrep.right_eq hs] at hne ⊢
    obtain ⟨hend, t, ht, hta, -⟩ := hwf.right hs hne
    rw [hrep.headerOffset_eq hs, hrep.availableSize_eq hs, hrep.left_eq ht]
    exact ⟨by rw [hend, Seg.len, Nat.add_assoc], hta⟩
  · obtain ⟨s, hs, hlo, -⟩ := hwf.start hb
    exact hlo ▸ hrep.exists_last hs
  · obtain ⟨s, hs, -, hhi⟩ := hrep.of_inChain hb ha
    rw [hrep.right_eq hs, hwf.right_eq_zero hs, Seg.len] at h₀
    rw [hrep.headerOffset_eq hs, hrep.availableSize_eq hs, ← hhi, ← h₀, Nat.add_assoc]
  · -- The ring goes through the links of the segments, at offset 8.
    have hmap : R.map doubleList = R.map (· + 8) := List.map_congr_left fun a ha => by
      obtain ⟨s, hs, -⟩ := hrep.mem_ring a ha
      exact hrep.layout.doubleList_eq hs
    rw [hmap]
    exact hrep.ring
  · refine fun a => ⟨fun ha => ?_, ?_⟩
    · obtain ⟨s, hs, hf⟩ := hrep.mem_ring a ha
      exact ⟨_, (hwf.block hs).1, hrep.inChain hs, (hinv.isFree_iff hs).2 hf⟩
    · rintro ⟨b, hb, ha, hf⟩
      obtain ⟨s, hs, -⟩ := hrep.of_inChain hb ha
      exact hinv.all hs ((hinv.isFree_iff hs).1 hf)
  · obtain ⟨s, hs, -⟩ := hrep.of_inChain hb ha
    rw [hinv.isFree_iff hs, (hrep.links_ne_zero hinv.all hs).2]
  · rintro ⟨h₁, h₂⟩
    obtain ⟨s, hs, -⟩ := hrep.of_inChain hb ha
    rw [hrep.right_eq hs] at hne h₂
    obtain ⟨-, t, ht, -⟩ := hwf.right hs hne
    exact hinv.coalesced hs ht ((hinv.isFree_iff hs).1 h₁) ((hinv.isFree_iff ht).1 h₂)
  · obtain ⟨s, hs, -⟩ := hrep.of_inChain hb ha
    exact hrep.layout.aligned hs
  · obtain ⟨a, s, hs, hea, hoff, hsize, hle⟩ := hrun.live_seg he
    obtain ⟨hb, h₁, h₂⟩ := hwf.block hs
    rw [hsize, hea]
    rw [Seg.len, hoff] at h₂
    exact ⟨⟨_, hb, by simp only; omega, by simp only; omega⟩, hle⟩
  · -- Two blocks in use are behind the headers of two segments.
    refine (List.pairwise_map.1 hrun.nodup).imp_of_mem fun he hf hne => ?_
    obtain ⟨a, s, hs, hea, hoff, hsize, -⟩ := hrun.live_seg he
    obtain ⟨c, t, ht, hfc, hoff', hsize', -⟩ := hrun.live_seg hf
    have := hrep.layout.sep hs ht (by omega)
    omega
  · obtain ⟨c, t, ht, hec, hoff', hsize, -⟩ := hrun.live_seg he
    obtain ⟨s, hs, -⟩ := hrep.of_inChain hb ha
    rw [hrep.headerOffset_eq hs, hsize]
    by_cases hca : a = c
    · subst hca
      rw [ht] at hs
      rw [← Option.some.inj hs]
      omega
    · have := hrep.layout.sep hs ht hca
      omega

theorem StateInv.consistent (hst : StateInv header used₀ st) : Consistent header st := by
  rcases hst with ⟨T, R, hrun⟩ | ⟨hb, hl, -⟩
  · exact hrun.consistent
  · constructor <;> simp [hb, hl]

/-- The heap before anything was added to it: `kernelHeap` is zero-initialised. -/
def empty (m : Mem) : State := ⟨⟨m, 0, 0⟩, [], []⟩

/-- **The heap stays consistent** in every run from an empty heap whose clients add a block before
    they allocate, and none at the null address; and every operation returns. -/
theorem consistent_of_run (hpos : 0 < header) (hlt : header + 4 < 2 ^ 32)
    (hempty : m.next header = 0 ∧ m.prev header = 0)
    (hrun : Run (step header) (InService header) (empty m) st) :
    Consistent header st ∧ ∀ op, InService header st op → ∃ st', step header st op = some st' := by
  have hst : StateInv header (fun _ => none) st := by
    refine hrun.invariant (fun hI hP hstep => ?_) (.inr ⟨rfl, rfl, hempty.1, rfl⟩)
    obtain ⟨st', hstep', hst'⟩ := hI.step hpos hlt hP
    rw [hstep] at hstep'
    exact Option.some.inj hstep' ▸ hst'
  exact ⟨hst.consistent, fun op hop => (hst.step hpos hlt hop).imp fun _ h => h.1⟩

/-- A block is added, and an allocation of it made and given back. -/
theorem consistent_after_allocate :
    ∃ st, Run (step 64) (InService 64) (empty fun _ => 0) st ∧ st.live = [(1056, 8)] ∧
      Consistent 64 st := by
  have hex : (execute (step 64) (InService 64) (empty fun _ => 0)
      [.addHeapBlock 1000 2000, .allocate 5, .allocate 8, .store 1056 7, .free 1024]).map
        State.live =
      some [(1056, 8)] := by
    decide +kernel
  obtain ⟨st, hrun, hlive⟩ := Run.exists_of_execute hex
  exact ⟨st, hrun, hlive, (consistent_of_run (by decide) (by decide) (by decide) hrun).1⟩

/-- Two heaps not in service. An allocation from a heap without blocks takes the null pointer for a
    free segment, here with four bytes at the end of the address space. Of the two segments of a
    block at the null address, the right one does not know its left neighbour, so both are free. -/
theorem not_consistent_out_of_service :
    (∃ st, Run (step 64) (Admissible 64) (empty fun a => if a = 8 then 4 else 0) st ∧
      ¬Consistent 64 st) ∧
    ∃ st, Run (step 64) (Admissible 64) (empty fun _ => 0) st ∧ ¬Consistent 64 st := by
  constructor
  · have hex : (execute (step 64) (Admissible 64) (empty fun a => if a = 8 then 4 else 0)
        [.allocate 4]).map (fun st => (st.blocks, st.live)) = some ([], [(2 ^ 32 - 8, 4)]) := by
      decide +kernel
    obtain ⟨st, hrun, heq⟩ := Run.exists_of_execute hex
    obtain ⟨hb, hl⟩ := Prod.mk.inj heq
    refine ⟨st, hrun, fun h => ?_⟩
    obtain ⟨⟨b, hmem, -⟩, -⟩ := h.payload (2 ^ 32 - 8, 4) (by simp [hl])
    simp [hb] at hmem
  · have hex : (execute (step 64) (Admissible 64) (empty fun _ => 0)
        [.addHeapBlock 0 64, .allocate 4, .allocate 12, .free 24, .free 52]).map
        (fun st => (st.blocks, decide (st.heap.mem.right 0 ≠ 0 ∧ IsFree st.heap.mem 0 ∧
          IsFree st.heap.mem (st.heap.mem.right 0)))) = some ([(0, 64)], true) := by
      decide +kernel
    obtain ⟨st, hrun, heq⟩ := Run.exists_of_execute hex
    obtain ⟨hb, hfree⟩ := Prod.mk.inj heq
    obtain ⟨hne, h₁, h₂⟩ := of_decide_eq_true hfree
    exact ⟨st, hrun, fun h => h.coalesced (0, 64) (by simp [hb]) 0 .start hne ⟨h₁, h₂⟩⟩

/-! ## Conservation -/

/-- A well-formed heap, whatever is in use of it. -/
def WellFormed (header : ℕ) (st : State) : Prop :=
  ∃ T R, Inv header {b | b ∈ st.blocks} st.heap T R

/-- The free segment at `a`, with `n` bytes available. -/
def FreeSeg (st : State) (a n : ℕ) : Prop :=
  ∃ b ∈ st.blocks, InChain st.heap.mem b.1 a ∧ IsFree st.heap.mem a ∧
    st.heap.mem.availableSize a = n

/-- The clients allocate, give back what they have allocated, and write to it. -/
def Exchange (header : ℕ) (st : State) : Op → Prop
  | .addHeapBlock _ _ => False
  | op => Admissible header st op

instance (header : ℕ) (st : State) : ∀ op, Decidable (Exchange header st op)
  | .addHeapBlock _ _ => inferInstanceAs (Decidable False)
  | .allocate n => inferInstanceAs (Decidable (Admissible header st (.allocate n)))
  | .free p => inferInstanceAs (Decidable (Admissible header st (.free p)))
  | .store x v => inferInstanceAs (Decidable (Admissible header st (.store x v)))

theorem RunInv.exchange (hrun : RunInv header used₀ st T R) {op : Op}
    (hop : Exchange header st op) :
    ∃ st', Heap.step header st op = some st' ∧ st'.blocks = st.blocks ∧
      ∃ T' R', RunInv header used₀ st' T' R' := by
  have hblocks : ∀ {st'}, Heap.step header st op = some st' → st'.blocks = st.blocks := by
    intro st' hst'
    cases op with
    | addHeapBlock l r => exact hop.elim
    | allocate n =>
      obtain ⟨p, -, rfl⟩ := Option.map_eq_some_iff.1 hst'
      rfl
    | free p => exact Option.some.inj hst' ▸ rfl
    | store x v => exact Option.some.inj hst' ▸ rfl
  cases op with
  | addHeapBlock l r => exact hop.elim
  | allocate n =>
    obtain ⟨st', hst', hrun'⟩ := hrun.allocate n
    exact ⟨st', hst', hblocks hst', hrun'⟩
  | free p =>
    obtain ⟨st', hst', hrun'⟩ := hrun.free hop
    exact ⟨st', hst', hblocks hst', hrun'⟩
  | store x v =>
    obtain ⟨st', hst', hrun'⟩ := hrun.store v hop
    exact ⟨st', hst', hblocks hst', T, R, hrun'⟩

theorem RunInv.of_run {st₀ : State} (hinit : RunInv header used₀ st₀ T R)
    (hrun : Run (Heap.step header) (Exchange header) st₀ st) :
    st.blocks = st₀.blocks ∧ ∃ T' R', RunInv header used₀ st T' R' := by
  refine hrun.invariant (I := fun st => st.blocks = st₀.blocks ∧
    ∃ T' R', RunInv header used₀ st T' R') (fun hI hP hstep => ?_) ⟨rfl, T, R, hinit⟩
  obtain ⟨hb, T', R', hI⟩ := hI
  obtain ⟨st', hstep', hb', hI'⟩ := hI.exchange hP
  rw [hstep] at hstep'
  exact Option.some.inj hstep' ▸ ⟨hb'.trans hb, hI'⟩

/-- A heap none of whose blocks was allocated in the run yet. -/
theorem Inv.runInv (hinv : Inv header {b | b ∈ st.blocks} st.heap T R) (hlive : st.live = []) :
    RunInv header T.used st T R :=
  ⟨hinv, by simp [hlive], fun _ _ => rfl, by simp [hlive]⟩

/-- The free segments of a heap are those of its tiling. -/
theorem Inv.freeSeg_iff (hinv : Inv header {b | b ∈ st.blocks} st.heap T R) {a n : ℕ} :
    FreeSeg st a n ↔ ∃ s, T a = some s ∧ s.free ∧ s.avail = n := by
  constructor
  · rintro ⟨b, hb, ha, hf, hn⟩
    obtain ⟨s, hs, -⟩ := hinv.rep.of_inChain hb ha
    exact ⟨s, hs, (hinv.isFree_iff hs).1 hf, (hinv.rep.availableSize_eq hs).symm.trans hn⟩
  · rintro ⟨s, hs, hf, hn⟩
    exact ⟨_, (hinv.rep.layout.wf.block hs).1, hinv.rep.inChain hs, (hinv.isFree_iff hs).2 hf,
      (hinv.rep.availableSize_eq hs).trans hn⟩

/-- Of two heaps with the same blocks, in which the same is in use, the free segments are the
    same. -/
theorem Inv.freeSeg_iff_of_used {st₀ : State} {T₀ : Tiling} {R₀ : List ℕ}
    (hinv : Inv header {b | b ∈ st.blocks} st.heap T R)
    (hinv₀ : Inv header {b | b ∈ st₀.blocks} st₀.heap T₀ R₀) (hblocks : st.blocks = st₀.blocks)
    (hused : T.used = T₀.used) (a n : ℕ) : FreeSeg st a n ↔ FreeSeg st₀ a n := by
  have hwf₀ := hinv₀.rep.layout.wf
  have hwf := hinv.rep.layout.wf
  rw [hblocks] at hwf
  rw [hinv.freeSeg_iff, hinv₀.freeSeg_iff]
  constructor
  · rintro ⟨s, hs, hf, hn⟩
    obtain ⟨s', hs', hf', hn'⟩ := hwf.free_unique hwf₀ (by decide) hinv.coalesced hused
      hinv₀.coalesced hs hf
    exact ⟨s', hs', hf', hn'.trans hn⟩
  · rintro ⟨s, hs, hf, hn⟩
    obtain ⟨s', hs', hf', hn'⟩ := hwf₀.free_unique hwf (by decide) hinv₀.coalesced hused.symm
      hinv.coalesced hs hf
    exact ⟨s', hs', hf', hn'.trans hn⟩

/-- A block all segments of which are free is one segment. -/
theorem Inv.single (hinv : Inv header {b | b ∈ st.blocks} st.heap T R) {b : ℕ × ℕ}
    (hb : b ∈ st.blocks) (hfree : ∀ a, InChain st.heap.mem b.1 a → IsFree st.heap.mem a) :
    ∃ s, T b.1 = some s ∧ s.free ∧ s.lo = b.1 ∧ s.hi = b.2 ∧ b.1 + s.len = b.2 := by
  have hwf := hinv.rep.layout.wf
  obtain ⟨s, hs, hlo, hhi⟩ := hwf.start hb
  have hf : s.free := (hinv.isFree_iff hs).1 (hfree _ .start)
  refine ⟨s, hs, hf, hlo, hhi, ?_⟩
  rw [← hhi, ← hwf.right_eq_zero hs]
  by_contra hne
  obtain ⟨-, t, ht, -⟩ := hwf.right hs hne
  have hright := hinv.rep.right_eq hs
  have hchain : InChain st.heap.mem b.1 s.right := by
    have := (.start : InChain st.heap.mem b.1 b.1).right (by rwa [hright])
    rwa [hright] at this
  exact hinv.coalesced hs ht hf ((hinv.isFree_iff ht).1 (hfree _ hchain))

/-- **No byte is lost**: in a run of allocations from a well-formed heap, the blocks allocated being
    given back in any order, every operation returns; and once all of them are given back the free
    segments are those of the beginning, a block that was free being one free segment. -/
theorem freeSeg_iff_of_run {st₀ : State} (hwf : WellFormed header st₀) (hlive : st₀.live = [])
    (hrun : Run (step header) (Exchange header) st₀ st) :
    (∀ op, Exchange header st op → ∃ st', step header st op = some st') ∧
    (st.live = [] → (∀ a n, FreeSeg st a n ↔ FreeSeg st₀ a n) ∧
      ∀ b ∈ st₀.blocks, (∀ a, InChain st₀.heap.mem b.1 a → IsFree st₀.heap.mem a) →
        IsFree st.heap.mem b.1 ∧ st.heap.mem.right b.1 = 0 ∧
          b.1 + st.heap.mem.headerOffset b.1 + st.heap.mem.availableSize b.1 = b.2) := by
  obtain ⟨T₀, R₀, hinv₀⟩ := hwf
  obtain ⟨hblocks, T, R, hrunInv⟩ := (hinv₀.runInv hlive).of_run hrun
  refine ⟨fun op hop => (hrunInv.exchange hop).imp fun _ h => h.1, fun hend => ?_⟩
  have hinv := hrunInv.inv
  have hwf₀ := hinv₀.rep.layout.wf
  have hwf := hinv.rep.layout.wf
  rw [hblocks] at hwf
  -- Nothing allocated in the run is in use any more.
  have hused : T.used = T₀.used := funext fun a => hrunInv.rest a (by simp [hend])
  refine ⟨hinv.freeSeg_iff_of_used hinv₀ hblocks hused, fun b hb hfree => ?_⟩
  · obtain ⟨s, hs, hf, hlo, hhi, hlen⟩ := hinv₀.single hb hfree
    obtain ⟨s', hs', hf', hn'⟩ := hwf₀.free_unique hwf (by decide) hinv₀.coalesced hused.symm
      hinv.coalesced hs hf
    have hlen' : b.1 + s'.hoff + s'.avail = b.2 := by
      have h₁ := hwf₀.free_header hs hf
      have h₂ := hwf.free_header hs' hf'
      rw [Seg.len] at hlen
      omega
    obtain ⟨-, hhi'⟩ := hwf₀.block_unique (by decide) hwf hs hs'
    refine ⟨(hinv.isFree_iff hs').2 hf', ?_, ?_⟩
    · rw [hinv.rep.right_eq hs', hwf.right_eq_zero hs', Seg.len, ← hhi', hhi]
      omega
    · rw [hinv.rep.headerOffset_eq hs', hinv.rep.availableSize_eq hs', hlen']

/-- A heap of one free block. -/
theorem wellFormed_block :
    WellFormed 64 ⟨addHeapBlock 64 ⟨fun _ => 0, 0, 0⟩ 1000 2000, [(1000, 2000)], []⟩ := by
  have hr : ValidRange 64 ∅ 1000 2000 := by
    constructor <;> simp
  have hinv := (addHeapBlock_empty_spec (h := ⟨fun _ => 0, 0, 0⟩) rfl (by decide) (by decide)
    (by decide) hr).1
  exact ⟨_, _, by simpa using hinv⟩

/-- Three allocations from a free block, given back out of order. -/
theorem freeSeg_after_exchange :
    ∃ st, Run (step 64) (Exchange 64)
        ⟨addHeapBlock 64 ⟨fun _ => 0, 0, 0⟩ 1000 2000, [(1000, 2000)], []⟩ st ∧
      st.live = [] ∧ FreeSeg st 1000 976 := by
  have hex : (execute (step 64) (Exchange 64)
      ⟨addHeapBlock 64 ⟨fun _ => 0, 0, 0⟩ 1000 2000, [(1000, 2000)], []⟩
      [.allocate 5, .allocate 8, .allocate 100, .free 1056, .free 1088, .free 1024]).map
      State.live = some [] := by
    decide +kernel
  obtain ⟨st, hrun, hlive⟩ := Run.exists_of_execute hex
  refine ⟨st, hrun, hlive,
    (((freeSeg_iff_of_run wellFormed_block rfl hrun).2 hlive).1 1000 976).2 ?_⟩
  exact ⟨(1000, 2000), by simp, .start, by decide, by decide⟩

/-! ## The size of an allocation -/

/-- `n` rounded up to whole words. -/
def wholeWords (n : ℕ) : ℕ := (n + 3) / 4 * 4

/-- What `malloc` and the kernel rely on, `allocate` having returned `p` and left the heap `h`: the
    result is null exactly when no free segment has `n` bytes, rounded up to whole words, and a
    payload of at least `n` bytes otherwise. -/
structure HonoursSize (st : State) (n p : ℕ) (h : Heap) : Prop where
  null_iff : p = 0 ↔ ∀ a k, FreeSeg st a k → k < wholeWords n
  size : p ≠ 0 → n ≤ payloadSize h.mem p

theorem le_wholeWords (n : ℕ) : n ≤ wholeWords n := by
  rw [wholeWords]
  omega

/-- `alignUp` rounds a size up, unless that overflows: it is then zero. -/
theorem alignUp_four (n : ℕ) (hn : n < 2 ^ 32) :
    alignUp n 4 = if n ≤ 2 ^ 32 - 4 then wholeWords n else 0 := by
  have h := alignUp_two_pow (a := n) (k := 2) (by decide)
  simp only [Nat.reducePow, Nat.add_one_sub_one] at h
  rw [h]
  split_ifs with hle
  · rw [word_eq (by omega), wholeWords]
  · rw [word]
    omega

/-- **`allocate` honours the size asked for**, in a well-formed heap, exactly when the size is not
    one of the last three, which are rounded up to zero: a heap without free segments apart. -/
theorem honoursSize_iff {n : ℕ} (hwf : WellFormed header st) (hn : n < 2 ^ 32) :
    (∃ p h', allocate header st.heap n = some (p, h') ∧ HonoursSize st n p h') ↔
      n ≤ 2 ^ 32 - 4 ∨ ∀ a k, ¬FreeSeg st a k := by
  obtain ⟨T, R, hinv⟩ := hwf
  obtain ⟨p, h', heq, hcase⟩ := allocate_spec hinv n
  rw [heq]
  simp only [Option.some.injEq, Prod.mk.injEq, ↓existsAndEq, true_and]
  have hround := alignUp_four n hn
  rcases hcase with ⟨rfl, rfl, hnone⟩ | ⟨a, s, avail, T', R', ha, hf, rfl, hle, hle', hinv', hused⟩
  · -- No free segment is large enough for the size after rounding.
    refine iff_of_true ⟨iff_of_true rfl fun a k hk => ?_, fun h₀ => absurd rfl h₀⟩ ?_
    · obtain ⟨s, hs, hf, rfl⟩ := hinv.freeSeg_iff.1 hk
      refine (hnone a s hs hf).trans_le ?_
      rw [hround]
      split_ifs
      exacts [le_rfl, Nat.zero_le _]
    · by_cases h₄ : n ≤ 2 ^ 32 - 4
      · exact .inl h₄
      · refine .inr fun a k hk => ?_
        obtain ⟨s, hs, hf, -⟩ := hinv.freeSeg_iff.1 hk
        have := hnone a s hs hf
        rw [hround, if_neg h₄] at this
        omega
  · have hfree : FreeSeg st a s.avail := hinv.freeSeg_iff.2 ⟨s, ha, hf, rfl⟩
    have hsize : payloadSize h'.mem (a + 24) = avail :=
      (hinv'.payload_eq ((congrFun hused a).trans (Function.update_self ..))).1
    constructor
    · rintro ⟨hnull, -⟩
      by_contra hno
      obtain ⟨h₄, -⟩ := not_or.1 hno
      -- Rounded up to zero, the size fits everywhere, but no segment has that many bytes.
      have h₀ : a + 24 = 0 := hnull.2 fun c k hk => by
        obtain ⟨u, hu, -, rfl⟩ := hinv.freeSeg_iff.1 hk
        have h₁ := hinv.rep.layout.bound hu
        have h₂ := le_wholeWords n
        omega
      omega
    · intro hor
      have h₄ : n ≤ 2 ^ 32 - 4 := hor.resolve_right fun hno => hno a _ hfree
      rw [if_pos h₄] at hround
      refine ⟨iff_of_false (by omega) fun hlt => ?_, fun _ => ?_⟩
      · have := hlt a _ hfree
        omega
      · rw [hsize]
        exact (le_wholeWords n).trans (hround ▸ hle)

/-- A request for five bytes. -/
theorem honoursSize_five :
    ∃ p h', allocate 64 (addHeapBlock 64 ⟨fun _ => 0, 0, 0⟩ 1000 2000) 5 = some (p, h') ∧
      HonoursSize ⟨addHeapBlock 64 ⟨fun _ => 0, 0, 0⟩ 1000 2000, [(1000, 2000)], []⟩ 5 p h' :=
  (honoursSize_iff wellFormed_block (by decide)).2 (.inl (by decide))

/-- The whole address space is asked for, less one byte: the payload returned is empty. -/
theorem not_honoursSize_max :
    WellFormed 64 ⟨addHeapBlock 64 ⟨fun _ => 0, 0, 0⟩ 1000 2000, [(1000, 2000)], []⟩ ∧
      ¬∃ p h', allocate 64 (addHeapBlock 64 ⟨fun _ => 0, 0, 0⟩ 1000 2000) (2 ^ 32 - 1) =
        some (p, h') ∧
        HonoursSize ⟨addHeapBlock 64 ⟨fun _ => 0, 0, 0⟩ 1000 2000, [(1000, 2000)], []⟩
          (2 ^ 32 - 1) p h' := by
  refine ⟨wellFormed_block, ?_⟩
  rintro ⟨p, h', heq, hp⟩
  have hrun : (allocate 64 (addHeapBlock 64 ⟨fun _ => 0, 0, 0⟩ 1000 2000) (2 ^ 32 - 1)).map
      (fun r => (r.1, payloadSize r.2.mem r.1)) = some (1024, 0) := by
    decide +kernel
  rw [heq] at hrun
  obtain ⟨rfl, hsize⟩ := Prod.mk.inj (Option.some.inj hrun)
  have := hp.size (by decide)
  simp only at hsize
  omega

end Heap

end DemoOs
