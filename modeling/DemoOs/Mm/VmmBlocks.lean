import Mathlib.Data.Set.Card
import Mathlib.Data.Finset.Card
import DemoOs.Mm.VmmPages

/-!
# The descriptors of a memory table

`firstInit` and `secondInit` for any table of segments. The former sums up the lengths of the
segments, their bounds rounded to pages; the latter makes a descriptor for every page between the
same bounds.

A segment inside of one page, which begins after the page does and ends before it does, has its
rounded start one page beyond its rounded end (`MemBlock.Tiny`): it counts as minus one page, and
has no descriptor. The count is right exactly if there are no such segments, or a multiple of `2^20`
of them; then every page has its descriptor (`describes_iff`).
-/

namespace DemoOs

namespace Vmm

open Links

/-- `Vmm::firstInit`, for a table of segments. -/
def firstInitOf (v : Vmm) (spaces : List MemBlock) : Vmm :=
  { v with
    links := v.links.initRing (.hdr .free)
    freePageCounter :=
      spaces.foldl (fun n b => word (n + wordSub b.stop b.start)) 0 >>> 12 }

/-- `Vmm::secondInit`, for a table of segments, the heap having given the memory of the
    descriptors. -/
def secondInitOf (v : Vmm) (spaces : List MemBlock) : Option Vmm := v.initBlocks 0 spaces


/-- `sizeof(Page)`. -/
def sizeofPage : ℕ := 16

namespace MemBlock

/-- The sums formed of the base and the size do not overflow. -/
structure NoWrap (b : MemBlock) : Prop where
  base : b.baseAddr + (pageSize - 1) < 2 ^ 32
  stop : b.baseAddr + b.size < 2 ^ 32

/-- The segments do not overlap. -/
def Apart (b c : MemBlock) : Prop :=
  b.baseAddr + b.size ≤ c.baseAddr ∨ c.baseAddr + c.size ≤ b.baseAddr

/-- The whole page at `p` lies in the segment. -/
structure HasPage (b : MemBlock) (p : ℕ) : Prop where
  aligned : pageSize ∣ p
  base : b.baseAddr ≤ p
  stop : p + pageSize ≤ b.baseAddr + b.size

/-- The segment lies inside of one page, neither bound of which it reaches. -/
def Tiny (b : MemBlock) : Prop :=
  0 < b.baseAddr % pageSize ∧ b.baseAddr % pageSize + b.size < pageSize

instance (b : MemBlock) : Decidable b.Tiny := inferInstanceAs (Decidable (_ ∧ _))

/-- The number of whole pages in a segment. -/
def count (b : MemBlock) : ℕ :=
  (b.baseAddr + b.size) / pageSize - (b.baseAddr + (pageSize - 1)) / pageSize

/-- The whole pages of a segment, in their order. -/
def pages (b : MemBlock) : List ℕ := (List.range b.count).map fun j => b.start + j * pageSize

variable {b c : MemBlock} {p : ℕ}

theorem NoWrap.start_eq (h : b.NoWrap) :
    b.start = (b.baseAddr + (pageSize - 1)) / pageSize * pageSize := by
  have halign : b.start = word (b.baseAddr + (pageSize - 1)) / pageSize * pageSize :=
    alignUp_two_pow (k := 12) (by decide)
  rwa [word_eq h.base] at halign

theorem NoWrap.stop_eq (h : b.NoWrap) :
    b.stop = (b.baseAddr + b.size) / pageSize * pageSize := by
  rw [MemBlock.stop, word_eq h.stop]
  exact alignDown_two_pow (k := 12) h.stop (by decide)

theorem NoWrap.mem_pages (h : b.NoWrap) : p ∈ b.pages ↔ b.HasPage p := by
  simp only [pages, List.mem_map, List.mem_range, h.start_eq, count]
  unfold pageSize
  constructor
  · rintro ⟨j, hj, rfl⟩
    exact ⟨⟨(b.baseAddr + 4095) / 4096 + j, by unfold pageSize; omega⟩, by omega,
      by unfold pageSize; omega⟩
  · rintro ⟨⟨q, hq⟩, h₁, h₂⟩
    unfold pageSize at hq h₂
    exact ⟨q - (b.baseAddr + 4095) / 4096, by omega, by omega⟩

theorem nodup_pages (b : MemBlock) : b.pages.Nodup := by
  refine (List.nodup_map_iff fun i j hij => ?_).2 List.nodup_range
  have : 0 < pageSize := by decide
  exact Nat.eq_of_mul_eq_mul_right this (Nat.add_left_cancel hij)

/-- A segment inside of one page: the page after the one it ends in is the first that may start in
    it. -/
theorem tiny_cases (b : MemBlock) :
    b.Tiny ∧ (b.baseAddr + b.size) / pageSize + 1 = (b.baseAddr + (pageSize - 1)) / pageSize ∨
      ¬b.Tiny ∧ (b.baseAddr + (pageSize - 1)) / pageSize ≤ (b.baseAddr + b.size) / pageSize := by
  unfold Tiny pageSize
  omega

/-- What a segment adds to the sum: its pages, or minus one page. -/
theorem NoWrap.add_count (h : b.NoWrap) {n : ℕ} (hn : pageSize ∣ n) :
    pageSize ∣ word (n + wordSub b.stop b.start) ∧
      (word (n + wordSub b.stop b.start) / pageSize + if b.Tiny then 1 else 0) % 2 ^ 20 =
        (n / pageSize + b.count) % 2 ^ 20 := by
  obtain ⟨q, rfl⟩ := hn
  have h₁ : (b.baseAddr + (pageSize - 1)) / pageSize < 2 ^ 20 := by
    have := h.base
    unfold pageSize at *
    omega
  have h₂ : (b.baseAddr + b.size) / pageSize < 2 ^ 20 := by
    have := h.stop
    unfold pageSize at *
    omega
  rw [h.start_eq, h.stop_eq, count]
  unfold wordSub word
  obtain ⟨ht, hlt⟩ | ⟨ht, hle⟩ := b.tiny_cases
  · rw [if_pos ht]
    generalize (b.baseAddr + b.size) / pageSize = e at *
    generalize (b.baseAddr + (pageSize - 1)) / pageSize = s at *
    unfold pageSize
    omega
  · rw [if_neg ht]
    generalize (b.baseAddr + b.size) / pageSize = e at *
    generalize (b.baseAddr + (pageSize - 1)) / pageSize = s at *
    unfold pageSize
    omega

end MemBlock

/-- The table of segments: no sum overflows, and no two segments overlap. -/
structure Table (bs : List MemBlock) : Prop where
  noWrap : ∀ b ∈ bs, b.NoWrap
  apart : bs.Pairwise MemBlock.Apart

variable {v : Vmm} {bs : List MemBlock} {b : MemBlock} {i : ℕ}

theorem Table.of_cons (h : Table (b :: bs)) : Table bs :=
  ⟨fun c hc => h.noWrap c (List.mem_cons_of_mem _ hc), (List.pairwise_cons.1 h.apart).2⟩

/-- The whole pages of all segments, in their order. -/
def allPages (bs : List MemBlock) : List ℕ := bs.flatMap MemBlock.pages

theorem Table.mem_allPages (h : Table bs) {p : ℕ} :
    p ∈ allPages bs ↔ ∃ b ∈ bs, b.HasPage p := by
  rw [allPages, List.mem_flatMap]
  exact exists_congr fun b => and_congr_right fun hb => (h.noWrap b hb).mem_pages

theorem Table.nodup_allPages (h : Table bs) : (allPages bs).Nodup := by
  refine List.nodup_flatMap.2 ⟨fun b _ => b.nodup_pages,
    h.apart.imp_of_mem fun {b c} hb hc hbc => ?_⟩
  intro p hp hp'
  have h₁ := (h.noWrap b hb).mem_pages.1 hp
  have h₂ := (h.noWrap c hc).mem_pages.1 hp'
  have := h₁.base
  have := h₁.stop
  have := h₂.base
  have := h₂.stop
  have : 0 < pageSize := by decide
  unfold MemBlock.Apart at hbc
  omega

/-- There are fewer whole pages than the address space has. -/
theorem Table.length_allPages_lt (h : Table bs) : (allPages bs).length < 2 ^ 20 := by
  have hsub : (allPages bs).toFinset ⊆ (Finset.range (2 ^ 20 - 1)).image (· * pageSize) := by
    intro p hp
    obtain ⟨b, hb, ⟨q, rfl⟩, -, hstop⟩ := h.mem_allPages.1 (List.mem_toFinset.1 hp)
    have hlt := (h.noWrap b hb).stop
    refine Finset.mem_image.2 ⟨q, Finset.mem_range.2 ?_, Nat.mul_comm ..⟩
    unfold pageSize at hstop
    omega
  have hcard := (Finset.card_le_card hsub).trans Finset.card_image_le
  rw [List.toFinset_card_of_nodup h.nodup_allPages, Finset.card_range] at hcard
  omega

/-! ## The count -/

theorem Table.foldl_count (h : Table bs) (n : ℕ) (hn : pageSize ∣ n) :
    pageSize ∣ bs.foldl (fun n b => word (n + wordSub b.stop b.start)) n ∧
      (bs.foldl (fun n b => word (n + wordSub b.stop b.start)) n / pageSize +
        bs.countP (fun b => b.Tiny)) % 2 ^ 20 = (n / pageSize + (allPages bs).length) % 2 ^ 20 := by
  induction bs generalizing n with
  | nil => exact ⟨hn, rfl⟩
  | cons b bs ih =>
    obtain ⟨hdvd, hmod⟩ := (h.noWrap b List.mem_cons_self).add_count hn
    obtain ⟨hdvd', hmod'⟩ := ih h.of_cons _ hdvd
    refine ⟨hdvd', ?_⟩
    have hlen : (allPages (b :: bs)).length = b.count + (allPages bs).length := by
      simp [allPages, MemBlock.pages]
    simp only [List.foldl_cons, List.countP_cons, hlen, decide_eq_true_eq]
    split_ifs at hmod ⊢ <;> omega

/-- The count is short of the pages by the number of tiny segments. -/
theorem Table.counter_firstInitOf (h : Table bs) (v : Vmm) :
    (v.firstInitOf bs).freePageCounter < 2 ^ 20 ∧
      ((v.firstInitOf bs).freePageCounter + bs.countP (fun b => b.Tiny)) % 2 ^ 20 =
        (allPages bs).length % 2 ^ 20 := by
  obtain ⟨-, hmod⟩ := h.foldl_count 0 (Nat.dvd_zero _)
  have hlt : bs.foldl (fun n b => word (n + wordSub b.stop b.start)) 0 < 2 ^ 32 := by
    cases bs using List.reverseRecOn with
    | nil => decide
    | append_singleton bs b =>
      rw [List.foldl_append]
      exact word_lt _
  simp only [firstInitOf, Nat.shiftRight_eq_div_pow]
  rw [Nat.zero_div, Nat.zero_add] at hmod
  unfold pageSize at hmod
  exact ⟨by omega, hmod⟩

/-! ## The descriptors -/

/-- The physical addresses in the first `n` descriptors. -/
def addresses (v : Vmm) (n : ℕ) : List (BitVec 32) := (List.range n).map v.phyAddr

theorem addresses_add {v' : Vmm} {n start : ℕ} (hold : ∀ j < i, v'.phyAddr j = v.phyAddr j)
    (hnew : ∀ j < n, v'.phyAddr (i + j) = BitVec.ofNat 32 (start + j * pageSize)) :
    v'.addresses (i + n) =
      v.addresses i ++ (List.range n).map fun j => BitVec.ofNat 32 (start + j * pageSize) := by
  rw [addresses, List.range_add, List.map_append, addresses]
  congr 1
  · exact List.map_congr_left fun j hj => hold j (List.mem_range.1 hj)
  · rw [List.map_map]
    exact List.map_congr_left fun j hj => hnew j (List.mem_range.1 hj)

/-- The loop over the segments, there being as many descriptors left as pages. -/
theorem Table.initBlocks_eq (h : Table bs) (hr : v.links.Rings (rings (fresh i)))
    (hcount : i + (allPages bs).length = v.freePageCounter) :
    ∃ v', v.initBlocks i bs = some v' ∧
      v'.links.Rings (rings (fresh (i + (allPages bs).length))) ∧
      v'.addresses (i + (allPages bs).length) =
        v.addresses i ++ (allPages bs).map (BitVec.ofNat 32) := by
  induction bs generalizing v i with
  | nil => exact ⟨v, rfl, hr, by simp [allPages]⟩
  | cons b bs ih =>
    have hlen : (allPages (b :: bs)).length = b.count + (allPages bs).length := by
      simp [allPages, MemBlock.pages]
    have hb := h.noWrap b List.mem_cons_self
    by_cases hi : i < v.freePageCounter
    · -- The end of a block is a whole number of pages behind its start, or the block is empty.
      have hstop : b.stop = b.start + b.count * pageSize ∨ b.count = 0 ∧ b.stop ≤ b.start := by
        rw [hb.start_eq, hb.stop_eq]
        unfold MemBlock.count pageSize
        omega
      have hlt : b.start + b.count * pageSize < 2 ^ 32 := by
        have h₁ := hb.base
        have h₂ := hb.stop
        rw [hb.start_eq]
        unfold MemBlock.count pageSize at *
        omega
      obtain ⟨v₁, hv₁, hr₁, hold, hnew, hcounter, -⟩ := initPages_eq (2 ^ 32) b.count hr hstop hlt
        (by unfold pageSize at hlt; omega)
      obtain ⟨v₂, hv₂, hr₂, haddr⟩ := ih h.of_cons hr₁ (by omega)
      refine ⟨v₂, ?_, ?_, ?_⟩
      · rw [initBlocks, if_pos hi, hv₁]
        exact hv₂
      · rwa [hlen, ← Nat.add_assoc]
      · rw [hlen, ← Nat.add_assoc, haddr, addresses_add hold hnew, allPages, allPages,
          List.flatMap_cons, List.map_append, List.append_assoc, MemBlock.pages, List.map_map]
        rfl
    · -- No descriptor is left, and no page.
      have hnil : (allPages (b :: bs)).length = 0 := by omega
      refine ⟨v, by rw [initBlocks, if_neg hi], ?_, ?_⟩
      · rwa [hnil]
      · rw [hnil, List.eq_nil_of_length_eq_zero hnil]
        simp

/-- What the count and the descriptors are for, `v₁` being the manager after `firstInit`, and `v₂`
    the one after `secondInit`. -/
structure Describes (bs : List MemBlock) (v₁ v₂ : Vmm) : Prop where
  /-- The count is the number of whole pages. -/
  count : v₁.freePageCounter = {p | ∃ b ∈ bs, b.HasPage p}.ncard
  /-- There are that many descriptors, all of them in the memory of the size asked of the heap; and
      each whole page has exactly one. -/
  descriptors : ∃ l, v₂.IsList .free l ∧ l.Nodup ∧ l.length = v₁.freePageCounter ∧
    (∀ i ∈ l, i * sizeofPage + sizeofPage ≤ v₁.freePageCounter * sizeofPage) ∧
    Set.BijOn (fun i => (v₂.phyAddr i).toNat) {i | i ∈ l} {p | ∃ b ∈ bs, b.HasPage p}

theorem Table.ncard_pages (h : Table bs) :
    {p | ∃ b ∈ bs, b.HasPage p}.ncard = (allPages bs).length := by
  have hset : {p | ∃ b ∈ bs, b.HasPage p} = ↑(allPages bs).toFinset := by
    ext p
    simp [h.mem_allPages]
  rw [hset, Set.ncard_coe_finset, List.toFinset_card_of_nodup h.nodup_allPages]

/-- The descriptors, if the count is right. -/
theorem Table.describes (h : Table bs) (sr : Mmu.SRs)
    (hcount : (allPages bs).length = ((zero sr false).firstInitOf bs).freePageCounter) :
    ∃ v, ((zero sr false).firstInitOf bs).secondInitOf bs = some v ∧
      Describes bs ((zero sr false).firstInitOf bs) v := by
  obtain ⟨v, hv, hr, haddr⟩ := h.initBlocks_eq (i := 0) (v := (zero sr false).firstInitOf bs)
    (rings_firstInit sr) (by rw [Nat.zero_add, hcount])
  rw [Nat.zero_add] at hr haddr
  refine ⟨v, hv, by rw [h.ncard_pages, hcount], List.range (allPages bs).length, ?_,
    List.nodup_range, by rw [List.length_range, hcount], fun i hi => ?_, ?_⟩
  · have hring := hr.ring .free
    rwa [Vmm.rings, fresh, Function.update_self] at hring
  · rw [List.mem_range, hcount] at hi
    unfold sizeofPage
    omega
  · -- The addresses in the descriptors are the pages, in their order.
    have hget : ∀ i (hi : i < (allPages bs).length), (v.phyAddr i).toNat = (allPages bs)[i] := by
      intro i hi
      have hget := congrArg (·[i]?) haddr
      simp only [addresses, List.range_zero, List.map_nil, List.nil_append, List.getElem?_map,
        List.getElem?_range hi, List.getElem?_eq_getElem hi, Option.map_some,
        Option.some.injEq] at hget
      obtain ⟨b, hb, hpage⟩ := h.mem_allPages.1 (List.getElem_mem hi)
      have hlt := (h.noWrap b hb).stop
      have hstop := hpage.stop
      rw [hget, BitVec.toNat_ofNat, Nat.mod_eq_of_lt (by omega)]
    refine ⟨fun i hi => ?_, fun i hi j hj hij => ?_, fun p hp => ?_⟩
    · have hi := List.mem_range.1 hi
      rw [Set.mem_ofPred_eq, ← h.mem_allPages]
      simp only [hget i hi, List.getElem_mem]
    · have hi := List.mem_range.1 hi
      have hj := List.mem_range.1 hj
      simp only [hget i hi, hget j hj] at hij
      exact (h.nodup_allPages.getElem_inj_iff).1 hij
    · obtain ⟨i, hi, rfl⟩ := List.mem_iff_getElem.1 (h.mem_allPages.2 hp)
      exact ⟨i, List.mem_range.2 hi, hget i hi⟩

/-- **Every page has its descriptor, and the count is right**, for a table of segments, exactly if
    the number of segments inside of one page is a multiple of `2^20`: for shorter tables, if there
    are none. -/
theorem describes_iff (h : Table bs) (sr : Mmu.SRs) :
    (∃ v, ((zero sr false).firstInitOf bs).secondInitOf bs = some v ∧
      Describes bs ((zero sr false).firstInitOf bs) v) ↔ 2 ^ 20 ∣ bs.countP (fun b => b.Tiny) := by
  obtain ⟨hlt, hmod⟩ := h.counter_firstInitOf (zero sr false)
  have hlt' := h.length_allPages_lt
  constructor
  · rintro ⟨v, -, hv⟩
    have hcount := hv.count
    rw [h.ncard_pages] at hcount
    omega
  · intro hdvd
    exact h.describes sr (by omega)

theorem table_vmmSpaces : Table vmmSpaces where
  noWrap := by
    intro b hb
    obtain rfl := List.mem_singleton.1 hb
    exact ⟨by decide, by decide⟩
  apart := List.pairwise_singleton ..

/-- The table of this machine has no segment inside of one page. -/
theorem describes_machine :
    ∃ v, ((zero Mmu.segments false).firstInitOf vmmSpaces).secondInitOf vmmSpaces = some v ∧
      Describes vmmSpaces ((zero Mmu.segments false).firstInitOf vmmSpaces) v :=
  (describes_iff table_vmmSpaces Mmu.segments).2 (by decide)

/-- A segment of two pages, and one of 16 bytes inside of a page: the count is one page. -/
theorem not_describes_tiny :
    Table [⟨0x100000, 0x2000⟩, ⟨0x200010, 16⟩] ∧
      ((zero Mmu.segments false).firstInitOf [⟨0x100000, 0x2000⟩, ⟨0x200010, 16⟩]).freePageCounter =
      1 ∧
      ¬∃ v, ((zero Mmu.segments false).firstInitOf [⟨0x100000, 0x2000⟩,
        ⟨0x200010, 16⟩]).secondInitOf
          [⟨0x100000, 0x2000⟩, ⟨0x200010, 16⟩] = some v ∧
        Describes [⟨0x100000, 0x2000⟩, ⟨0x200010, 16⟩]
          ((zero Mmu.segments false).firstInitOf [⟨0x100000, 0x2000⟩, ⟨0x200010, 16⟩]) v := by
  have htable : Table [⟨0x100000, 0x2000⟩, ⟨0x200010, 16⟩] := by
    refine ⟨fun b hb => ?_, by simp [MemBlock.Apart]⟩
    rcases List.mem_pair.1 hb with rfl | rfl <;> exact ⟨by decide, by decide⟩
  have hcounter : ((zero Mmu.segments false).firstInitOf
      [⟨0x100000, 0x2000⟩, ⟨0x200010, 16⟩]).freePageCounter = 1 := by
    change List.foldl _ 0 _ >>> 12 = 1
    decide
  refine ⟨htable, hcounter, ?_⟩
  rintro ⟨v, -, hv⟩
  have hcount := hv.count
  have hlen : (allPages [⟨0x100000, 0x2000⟩, ⟨0x200010, 16⟩]).length = 2 := by decide
  rw [htable.ncard_pages, hcounter, hlen] at hcount
  omega

end Vmm

end DemoOs
