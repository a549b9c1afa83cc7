import DemoOs.Arch.Translation

/-!
# The translation lookaside buffer

The processor keeps translations it has looked up (`Tlb`), and uses them without looking at the
table again. `tlbie` removes those of the page an effective address is in.

When `insertPTE` overwrites a valid entry, it has `tlbie` executed for the address it was called
with, not for one in the page the entry was of. A translation of that page stays, unless it is the
page of the address itself (`evicted_iff`); the next access takes a translation that is not in the
table any more (`coherent_insertPTE_iff`).
-/

namespace DemoOs

namespace Mmu

/-- The translations kept: pages, with the second word of their entry. -/
abbrev Tlb := Set (Page × BitVec 32)

/-- `ppcInvalidTlbe`. -/
def ppcInvalidTlbe (sr : SRs) (effAddr : BitVec 32) (c : Tlb) : Tlb :=
  {e ∈ c | e.1 ≠ page sr effAddr}

/-- No translation of the page is kept. -/
def Tlb.Lacks (c : Tlb) (p : Page) : Prop := ∀ w, (p, w) ∉ c

/-- All translations kept are those of the table. -/
def Coherent (t : HashTable) (c : Tlb) : Prop := ∀ e ∈ c, t.translation e.1 = some e.2

namespace HashTable

/-- What becomes of the buffer in `HashTable::insertPTE`. -/
def insertPTETlb (t : HashTable) (sr : SRs) (virtAddr : BitVec 32) (c : Tlb) : Tlb :=
  if (t.ptes (t.findPTE sr virtAddr).1).v then ppcInvalidTlbe sr virtAddr c else c

variable {t : HashTable} {sr : SRs} {va entry : BitVec 32} {c : Tlb} {p q : Page}

theorem mem_ppcInvalidTlbe {e : Page × BitVec 32} :
    e ∈ ppcInvalidTlbe sr va c ↔ e ∈ c ∧ e.1 ≠ page sr va := Iff.rfl

theorem insertPTETlb_subset : t.insertPTETlb sr va c ⊆ c := by
  rw [insertPTETlb]
  split_ifs
  exacts [fun e he => he.1, subset_rfl]

/-- The translations of other pages stay. -/
theorem lacks_insertPTETlb_of_ne (hne : q ≠ page sr va) :
    (t.insertPTETlb sr va c).Lacks q ↔ c.Lacks q := by
  refine forall_congr' fun w => not_congr ?_
  rw [insertPTETlb]
  split_ifs
  · rw [mem_ppcInvalidTlbe]
    exact and_iff_left hne
  · exact Iff.rfl

/-- **The translations of the page whose entry is overwritten leave the buffer** exactly if there
    are none, or the page is that of the new entry. -/
theorem evicted_iff (hq : t.Translates q (t.findPTE sr va).1) :
    (t.insertPTETlb sr va c).Lacks q ↔ c.Lacks q ∨ q = page sr va := by
  by_cases hne : q = page sr va
  · refine iff_of_true (fun w hw => ?_) (.inr hne)
    rw [insertPTETlb, if_pos hq.valid] at hw
    exact hw.2 hne
  · rw [lacks_insertPTETlb_of_ne hne, or_iff_left hne]

/-- The table does not translate the page whose entry was overwritten any more, if this entry was
    its only one. -/
theorem Aligned.walk_victim (ht : t.Aligned) (hq : t.Translates q (t.findPTE sr va).1)
    (hone : t.AtMostOne q) (hne : q ≠ page sr va) (entry : BitVec 32) :
    (t.insertPTE sr va entry).walk q = none := by
  refine walk_eq_none_iff.2 fun s hs => ?_
  by_cases hslot : s = (t.findPTE sr va).1
  · exact hne ((hslot ▸ hs).page_unique ht.insertPTE ht.translates_insertPTE)
  · exact hslot (hone _ _ ((translates_set_of_ne hslot).1 hs) hq)

/-- A buffer that holds translations of the table only, goes on to do so after an entry is inserted
    for a page that has none exactly if it held none of the page whose entry is overwritten, if one
    is. -/
theorem coherent_insertPTE_iff (ht : t.Aligned) (hone : ∀ p, t.AtMostOne p) (hc : Coherent t c)
    (hmiss : t.walk (page sr va) = none) :
    Coherent (t.insertPTE sr va entry) (t.insertPTETlb sr va c) ↔
      ∀ q, t.Translates q (t.findPTE sr va).1 → c.Lacks q := by
  have hpage : c.Lacks (page sr va) := fun w hw => by
    have := hc _ hw
    rw [translation, hmiss] at this
    cases this
  constructor
  · intro h q hq
    by_cases hne : q = page sr va
    · exact hne ▸ hpage
    · -- The table has lost the entry, so the buffer had no translation to keep.
      have hgone := ht.walk_victim hq (hone q) hne entry
      refine (lacks_insertPTETlb_of_ne (t := t) hne).1 fun w hw => ?_
      have := h _ hw
      rw [translation, hgone] at this
      cases this
  · intro h e he
    have hmem := insertPTETlb_subset he
    have hne : e.1 ≠ page sr va := fun heq => hpage e.2 (heq ▸ hmem)
    rw [(ht.walk_insertPTE_of_ne hne fun hq => h _ hq e.2 hmem).2]
    exact hc e hmem

/-! ## Two full groups -/

/-- A table both groups of which are full, of entries with the referenced bit and the changed
    one. -/
def fullTable : HashTable :=
  (List.range 16).foldl
    (fun t j => t.insertPTE segments (BitVec.ofNat 32 (j * 2 ^ 22)) 0x183) (init 0x400000 0x10000)

/-- The page of the new entry had the entry that is overwritten. -/
theorem evicted_same_page : ((fullTable.insertPTETlb segments 0x2000000
      {(page segments 0x2000000, 0x183)}).Lacks (page segments 0x2000000)) :=
  (evicted_iff ⟨true, by decide +kernel⟩).2 (.inr rfl)

/-- With both groups full, the first entry of the second one is overwritten; its page has no entry
    any more, and its translation is still kept. -/
theorem not_evicted :
    fullTable.Translates (page segments 0x2000000) (fullTable.findPTE segments 0x4000000).1 ∧
      ((fullTable.insertPTE segments 0x4000000 0x183).walk (page segments 0x2000000) = none) ∧
      ¬(fullTable.insertPTETlb segments 0x4000000
        {(page segments 0x2000000, 0x183)}).Lacks (page segments 0x2000000) := by
  refine ⟨⟨true, by decide +kernel⟩, by decide +kernel, fun h => ?_⟩
  have hne : page segments 0x2000000 ≠ page segments 0x4000000 := by decide
  exact (lacks_insertPTETlb_of_ne hne).1 h 0x183 rfl

end HashTable

end Mmu

end DemoOs
