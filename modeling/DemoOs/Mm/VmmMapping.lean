import DemoOs.Arch.Locate
import DemoOs.Mm.VmmPages

/-!
# Mapping and unmapping

`mapping4KB` followed by `unmapping4KB` of the same address should leave nothing behind: the page is
free again, the process has the pages it had, and the address is not translated (`RoundTrip`). There
are two ways this fails:

* an identity mapping enters the address into the page hash table, but the address of the page into
  its descriptor, where `unmapping4KB` then does not find it;
* the translation is looked up for its removal under segment register 0.

`roundTrip_iff_returnable` says that there are no others. Mapping succeeds only if the lock of the
free list has been initialised.
-/

namespace DemoOs

namespace Vmm

open Mmu

variable {v v₁ : Vmm} {N i pid tid tid' : ℕ} {L : PageHdr → List ℕ} {l : List ℕ}
  {va flags : BitVec 32} {isIdentityMapping : Bool}

/-- No page of the process is recorded for the address, and the address is not translated. -/
def NotMapped (v : Vmm) (pid : ℕ) (va : BitVec 32) : Prop :=
  v.NotRecorded pid va ∧ v.mmu.tab.walk (page v.mmu.sr va) = none

/-- In the state `v₁` after a mapping in the state `v`, unmapping by the thread `tid` succeeds and
    gives the page back. The process has the pages it had, the counter is what it was, and the
    address is not translated. -/
def RoundTrip (v v₁ : Vmm) (tid pid : ℕ) (va : BitVec 32) : Prop :=
  ∃ v₂, v₁.unmapping4KB tid pid va = some (.ENONE, v₂) ∧
    (∃ i l, v.IsList .free (i :: l) ∧ v₂.IsList .free (l ++ [i])) ∧
    (∃ l, v.IsList (.proc pid) l ∧ v₂.IsList (.proc pid) l) ∧
    v₂.freePageCounter = v.freePageCounter ∧ v₂.mmu.tab.walk (page v₂.mmu.sr va) = none

/-- The address of the first free page is the address to be mapped, if the mapping is an identity
    mapping, and its segment register has the VSID of register 0. -/
def Returnable (v : Vmm) (va : BitVec 32) (isIdentityMapping : Bool) : Prop :=
  (isIdentityMapping = true → ∃ i, v.links.next (.hdr .free) = some (.page i) ∧ v.phyAddr i = va) ∧
    vsid (v.mmu.sr (va.extractLsb' 28 4)) = vsid (v.mmu.sr 0)

/-! ## The translation -/

/-- An entry inserted for a page without one is removed just if its VSID is that of register 0. -/
theorem walk_insert_invalid_iff {u : Mmu.State} {entry : BitVec 32} (ht : u.tab.Aligned)
    (hw : u.tab.WellPlaced) (hmask : u.tab.hashMask ≠ 0#32)
    (hmiss : u.tab.walk (page u.sr va) = none) :
    ((u.tab.insertPTE u.sr va entry).invalidPTE u.sr va).walk (page u.sr va) = none ↔
      vsid (u.sr (va.extractLsb' 28 4)) = vsid (u.sr 0) := by
  have hnew : (u.tab.insertPTE u.sr va entry).Translates (page u.sr va) (u.tab.findPTE u.sr va).1 :=
    ht.translates_insertPTE
  have hone : (u.tab.insertPTE u.sr va entry).AtMostOne (page u.sr va) :=
    HashTable.atMostOne_insertPTE fun s hs => absurd hs (HashTable.walk_eq_none_iff.1 hmiss s)
  constructor
  · intro hgone
    by_contra hvsid
    -- The entry that is removed, if any, has the VSID of register 0, so it is another one.
    refine HashTable.walk_eq_none_iff.1 hgone (u.tab.findPTE u.sr va).1 ?_
    obtain ⟨-, heq⟩ | ⟨s, hloc, heq⟩ := ht.insertPTE.invalidPTE_cases u.sr va
    · rwa [heq]
    · rw [heq]
      refine (HashTable.translates_set_of_ne fun hs => hvsid ?_).2 hnew
      obtain ⟨h, -, hm⟩ := hnew
      have hpage := (HashTable.matches_iff.1 hm).2.2.1
      have hlocated := (HashTable.resembles_iff.1 (ht.insertPTE.locatePTE_some hloc).2).2.1
      rw [← hs] at hlocated
      exact hpage.symm.trans hlocated
  · intro hvsid
    let u₁ : Mmu.State := ⟨u.sr, u.tab.insertPTE u.sr va entry⟩
    have hpage : page u₁.sr va = HashTable.located u₁.sr va := page_eq_located hvsid
    have hloc : u₁.tab.locatePTE u₁.sr va = u₁.tab.walk (page u₁.sr va) := by
      rw [hpage, ht.insertPTE.locatePTE_eq_walk_located_iff (ht.wellPlaced_insertPTE hw)]
      exact fun h => absurd h hmask
    exact (walk_invalidPTE (u := u₁) ht.insertPTE hloc hone).1

/-! ## The page -/

/-- A page is on one list only. -/
theorem Pages.ne_of_mem {h h' : PageHdr} {j : ℕ} (hp : Pages N L v) (hi : i ∈ L h) (hj : j ∈ L h')
    (hne : h ≠ h') : j ≠ i := by
  rintro rfl
  exact hne (hp.rings.disjoint (mem_rings.2 hi) (mem_rings.2 hj))

/-- After a mapping, unmapping finds the page just if the address recorded for it is that which was
    mapped. -/
theorem Pages.unmapping4KB_mapped (hp : Pages N L v) (hfree : L .free = i :: l)
    (hva : pageBase va = va) (hnot : NotMapped v pid va)
    (hp₁ : Pages N (move L .free l (.proc pid) i) v₁) (hlock₁ : v₁.freePageLock = .init)
    (htid : tid ≠ PageLock.invalid) {w : BitVec 32}
    (hvir : v₁.virAddr = Function.update v.virAddr i w) :
    (w ≠ va ∧ v₁.unmapping4KB tid pid va = some (.EFAULT, v₁)) ∨
      (w = va ∧ ∃ v₂, v₁.unmapping4KB tid pid va = some (.ENONE, v₂) ∧
        v₂.IsList .free (l ++ [i]) ∧ v₂.IsList (.proc pid) (L (.proc pid)) ∧
        v₂.freePageCounter = v.freePageCounter ∧
        v₂.mmu = (v₁.invalidPTE va).mmu) := by
  have hne : PageHdr.free ≠ .proc pid := nofun
  -- No other page of the process is recorded for `va`.
  have hold (j : ℕ) (hj : j ∈ L (.proc pid)) : v₁.virAddr j ≠ pageBase va := by
    rw [hvir, Function.update_of_ne (hp.ne_of_mem (by rw [hfree]; simp) hj hne), hva]
    exact hnot.1 j (hp.onList_iff.2 hj)
  have hL₁ : move L .free l (.proc pid) i (.proc pid) = L (.proc pid) ++ i :: [] := move_self
  by_cases hw : w = va
  · refine .inr ⟨hw, ?_⟩
    have hi : v₁.virAddr i = pageBase va := by rw [hvir, Function.update_self, hw, hva]
    obtain ⟨v₂, hunmap, hp₂, -, -, -, hmmu⟩ := hp₁.unmapping4KB_some hlock₁ htid hL₁ hold hi
    have hlist₂ := hp₂.rings.ring
    refine ⟨v₂, hunmap, ?_, ?_, ?_, hva ▸ hmmu⟩
    · have hring := hlist₂ .free
      rwa [Vmm.rings, move_self, move_of_ne hne] at hring
    · have hring := hlist₂ (.proc pid)
      rwa [Vmm.rings, move_of_ne hne.symm, List.append_nil] at hring
    · rw [hp₂.counter, move_self, move_of_ne hne, hp.counter, hfree]
      simp
  · refine .inl ⟨hw, hp₁.unmapping4KB_none fun j hj => ?_⟩
    rw [hL₁] at hj
    rcases List.mem_append.1 hj with hj | hj
    · exact hold j hj
    · rw [List.mem_singleton.1 hj, hvir, Function.update_self, hva]
      exact hw

theorem Pages.roundTrip_iff (hp : Pages N L v) (hlock : v.freePageLock = .init)
    (htid : tid ≠ PageLock.invalid) (htid' : tid' ≠ PageLock.invalid) (ht : v.mmu.tab.Aligned)
    (hw : v.mmu.tab.WellPlaced) (hmask : v.mmu.tab.hashMask ≠ 0#32) (hva : pageBase va = va)
    (hnot : NotMapped v pid va)
    (hmap : v.mapping4KB tid pid va flags isIdentityMapping = some (.ENONE, v₁)) :
    RoundTrip v v₁ tid' pid va ↔ Returnable v va isIdentityMapping := by
  cases hfree : L .free with
  | nil =>
    have hfail := (hp.mapping4KB_nil hlock htid hfree).symm.trans hmap
    cases hfail
  | cons i l =>
    obtain ⟨v', hmap', hp₁, hlock₁, -, hvir, hmmu⟩ := hp.mapping4KB_cons hlock htid hfree
    obtain rfl : v' = v₁ := (Prod.mk.inj (Option.some.inj (hmap'.symm.trans hmap))).2
    have hnext := hp.next_hdr .free
    rw [hfree, first] at hnext
    -- The address recorded is `va` unless the page is mapped to itself.
    have hrec : (if isIdentityMapping then v.phyAddr i else pageBase va) = va ↔
        (isIdentityMapping = true → ∃ i, v.links.next (.hdr .free) = some (.page i) ∧
          v.phyAddr i = va) := by
      cases isIdentityMapping <;> simp [hnext, hva]
    rw [Returnable, ← hrec]
    rcases hp.unmapping4KB_mapped hfree hva hnot hp₁ hlock₁ htid' hvir with
      ⟨hrec', hfail⟩ | ⟨hrec', v₂, hunmap, hfree₂, hproc₂, hcount₂, hmmu₂⟩
    · refine iff_of_false ?_ fun h => hrec' h.1
      rintro ⟨v₂, hunmap, -⟩
      have hcontra := hfail.symm.trans hunmap
      cases hcontra
    · -- The entry is looked up by segment register 0 whatever `va` is.
      have hwalk : v₂.mmu.tab.walk (page v₂.mmu.sr va) = none ↔
          vsid (v.mmu.sr (va.extractLsb' 28 4)) = vsid (v.mmu.sr 0) := by
        rw [hmmu₂]
        simp only [invalidPTE, hmmu, insertPTE, hva]
        exact walk_insert_invalid_iff ht hw hmask hnot.2
      constructor
      · rintro ⟨v₃, hunmap₃, -, -, -, hgone⟩
        obtain rfl : v₂ = v₃ := (Prod.mk.inj (Option.some.inj (hunmap.symm.trans hunmap₃))).2
        exact ⟨hrec', hwalk.1 hgone⟩
      · rintro ⟨-, hvsid⟩
        have hring := hp.rings.ring .free
        rw [Vmm.rings, hfree] at hring
        exact ⟨v₂, hunmap, ⟨i, l, hring, hfree₂⟩, ⟨L (.proc pid), hp.rings.ring _, hproc₂⟩, hcount₂,
          hwalk.2 hvsid⟩

/-- Whatever was mapped and unmapped before, an address that is mapped and unmapped is as it was
    just if it is recorded for its page and its translation is looked up under its own VSID. -/
theorem roundTrip_iff_returnable {sr : SRs} {tabStart : BitVec 32} {initialised : Bool} {v₀ : Vmm}
    (hboot : boot sr tabStart initialised = some v₀) (hrun : Run step Admits v₀ v)
    (htid : tid < 200) (htid' : tid' < 200) (hva : pageBase va = va) (hnot : NotMapped v pid va)
    (hmap : v.mapping4KB tid pid va flags isIdentityMapping = some (.ENONE, v₁)) :
    RoundTrip v v₁ tid' pid va ↔ Returnable v va isIdentityMapping := by
  have hstarted := started_of_run hboot hrun
  obtain ⟨L, hp⟩ := hstarted.pages
  obtain ⟨ht, hw⟩ := Reachable.wellPlaced ⟨sr, tabStart, 0x100000, hstarted.mmu⟩
  have hmask : v.mmu.tab.hashMask ≠ 0#32 := by
    rw [hashMask_of_run hstarted.mmu]
    exact (by decide : (HashTable.masks 0x100000).2 ≠ 0#32)
  have hlock : v.freePageLock = .init := by
    cases initialised with
    | true => exact hstarted.freePageLock
    | false =>
      -- Without the lock, the mapping would not have returned.
      rw [mapping4KB, getFreePage_eq_none hstarted.freePageLock] at hmap
      exact absurd hmap.symm (Option.some_ne_none _)
  exact hp.roundTrip_iff hlock (htid.trans (by decide)).ne
    (htid'.trans (by decide)).ne ht hw hmask hva hnot
    hmap

/-- At start-up, any address may be mapped, if the lock has been initialised. -/
theorem exists_mapping4KB_boot (sr : SRs) (tabStart : BitVec 32)
    (htid : tid ≠ PageLock.invalid) (pid : ℕ)
    (va flags : BitVec 32) (isIdentityMapping : Bool) :
    ∃ v₀ v₁, boot sr tabStart true = some v₀ ∧ NotMapped v₀ pid va ∧
      v₀.mapping4KB tid pid va flags isIdentityMapping = some (.ENONE, v₁) ∧
      v₀.mmu = ⟨sr, .init tabStart 0x100000⟩ ∧
      v₀.links.next (.hdr .free) = some (.page 0) ∧ v₀.phyAddr 0 = 0xA00000 := by
  obtain ⟨v₀, hboot, hp, hphy, hlock, hmmu⟩ := exists_boot sr tabStart true
  obtain ⟨l, hfree⟩ := fresh_free
  obtain ⟨v₁, hmap, -⟩ := hp.mapping4KB_cons hlock htid hfree
  have hnext := hp.next_hdr .free
  rw [hfree, first] at hnext
  refine ⟨v₀, v₁, hboot, ⟨fun i hi => ?_, ?_⟩, hmap, hmmu, hnext, hphy 0 (by decide)⟩
  · exact absurd (hp.onList_iff.1 hi) List.not_mem_nil
  · rw [hmmu]
    exact HashTable.walk_eq_none_iff.2 fun s hs => Bool.false_ne_true hs.valid

theorem roundTrip_boot : ∃ v₀ v₁, boot segments 0x400000 true = some v₀ ∧
    v₀.mapping4KB 3 0 0x5000 2 false = some (.ENONE, v₁) ∧ RoundTrip v₀ v₁ 4 0 0x5000 := by
  obtain ⟨v₀, v₁, hboot, hnot, hmap, hmmu, -⟩ :=
    exists_mapping4KB_boot segments 0x400000 (show (3 : ℕ) ≠ PageLock.invalid by decide) 0
      0x5000 2 false
  refine ⟨v₀, v₁, hboot, hmap,
    (roundTrip_iff_returnable hboot .refl (by decide) (by decide) (by decide) hnot
    hmap).2 ⟨nofun, ?_⟩⟩
  rw [hmmu]
  rfl

/-- At start-up with the lock initialised, an identity mapping of an address other than that of the
    first page is not undone, and neither is any mapping in another segment than the first. -/
theorem not_roundTrip_boot :
    (∃ v₀ v₁, boot segments 0x400000 true = some v₀ ∧ NotMapped v₀ 0 0x5000 ∧
      v₀.mapping4KB 3 0 0x5000 2 true = some (.ENONE, v₁) ∧ ¬RoundTrip v₀ v₁ 3 0 0x5000) ∧
    ∃ v₀ v₁, boot segments 0x400000 true = some v₀ ∧ NotMapped v₀ 0 0x10000000 ∧
      v₀.mapping4KB 3 0 0x10000000 2 false = some (.ENONE, v₁) ∧
        ¬RoundTrip v₀ v₁ 3 0 0x10000000 := by
  have htid : (3 : ℕ) ≠ PageLock.invalid := by decide
  have ht := HashTable.aligned_init 0x400000 0x100000
  have hw : (HashTable.init 0x400000 0x100000).WellPlaced :=
    fun s hs => absurd hs Bool.false_ne_true
  -- Both inputs fail the condition of the round trip.
  have hret {v₀ v₁ : Vmm} {va flags : BitVec 32} {isIdentityMapping : Bool}
      (hboot : boot segments 0x400000 true = some v₀)
        (hmmu : v₀.mmu = ⟨segments, .init 0x400000 0x100000⟩)
      (hva : pageBase va = va) (hnot : NotMapped v₀ 0 va)
      (hmap : v₀.mapping4KB 3 0 va flags isIdentityMapping = some (.ENONE, v₁))
      (h : RoundTrip v₀ v₁ 3 0 va) : Returnable v₀ va isIdentityMapping := by
    obtain ⟨v, hboot', hp, -, hlock, -⟩ := exists_boot segments 0x400000 true
    obtain rfl : v = v₀ := Option.some.inj (hboot'.symm.trans hboot)
    exact (hp.roundTrip_iff hlock htid htid (hmmu ▸ ht) (hmmu ▸ hw)
      (by rw [hmmu]; decide) hva hnot hmap).1 h
  constructor
  · obtain ⟨v₀, v₁, hboot, hnot, hmap, hmmu, hnext, hphy⟩ :=
      exists_mapping4KB_boot segments 0x400000 htid 0 0x5000 2 true
    refine ⟨v₀, v₁, hboot, hnot, hmap, fun h => ?_⟩
    obtain ⟨i, hi, hi'⟩ := (hret hboot hmmu (by decide) hnot hmap h).1 rfl
    rw [hnext] at hi
    obtain rfl : 0 = i := PageNode.page.inj (Option.some.inj hi)
    exact absurd (hphy.symm.trans hi') (by decide)
  · obtain ⟨v₀, v₁, hboot, hnot, hmap, hmmu, -⟩ :=
      exists_mapping4KB_boot segments 0x400000 htid 0 0x10000000 2 false
    refine ⟨v₀, v₁, hboot, hnot, hmap, fun h => ?_⟩
    have hvsid := (hret hboot hmmu (by decide) hnot hmap h).2
    rw [hmmu] at hvsid
    exact absurd hvsid (by decide)

end Vmm

end DemoOs
