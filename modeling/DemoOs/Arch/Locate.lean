import DemoOs.Arch.Translation

/-!
# Finding the entry to remove

`locatePTE` searches the slots the walk searches, in the same order, but for another page: its VSID
is that of segment register 0. And it takes any entry with this VSID and the abbreviated index of
the address, whatever its bit `H`. In the smallest table, where the groups of a page are those of
its mirror, this may be an entry of the mirror.

So `invalidPTE` removes the translation of an address just if there is none, or if its segment
register has the VSID of segment register 0 and the mirror is not in the way (`Locatable`).
-/

namespace DemoOs

namespace Mmu

namespace HashTable

variable {t : HashTable} {p q : Page} {h : Bool} {s s' : Slot} {sr : SRs} {va : BitVec 32}

instance : Decidable (t.Translates p s) := inferInstanceAs (Decidable (∃ _, _))

/-- The slots of both groups of a page, in the order of the search. -/
def slots (t : HashTable) (p : Page) : List Slot :=
  (List.finRange 8).map (t.group p false, ·) ++ (List.finRange 8).map (t.group p true, ·)

theorem mem_slots : s ∈ t.slots p ↔ ∃ h, s.1 = t.group p h := by
  obtain ⟨g, i⟩ := s
  simp [slots, eq_comm]

/-- Searching the primary group and then the secondary one. -/
theorem find?_slots {P : Slot → Bool} {P₀ P₁ : PTE → Bool}
    (h₀ : ∀ i, P (t.group p false, i) = P₀ (t.ptes (t.group p false, i)))
    (h₁ : ∀ i, P (t.group p true, i) = P₁ (t.ptes (t.group p true, i))) :
    (t.slots p).find? P = (t.findIn (t.group p false) P₀).or (t.findIn (t.group p true) P₁) := by
  rw [slots, List.find?_append, List.find?_map, List.find?_map]
  simp only [Function.comp_def, h₀, h₁, findIn]

theorem Aligned.translates_group_iff (ht : t.Aligned) {i : Fin 8} :
    t.Translates p (t.group p h, i) ↔ p.Matches h (t.ptes (t.group p h, i)) = true := by
  constructor
  · rintro ⟨h', hg, hm⟩
    obtain rfl : h = h' := by
      cases h <;> cases h'
      · rfl
      · exact absurd hg ht.group_ne
      · exact absurd hg ht.group_ne.symm
      · rfl
    exact hm
  · exact fun hm => ⟨h, rfl, hm⟩

theorem Aligned.walk_eq_find? (ht : t.Aligned) :
    t.walk p = (t.slots p).find? fun s => decide (t.Translates p s) := by
  refine (find?_slots (fun i => ?_) fun i => ?_).symm
  · simp only [ht.translates_group_iff, Bool.decide_eq_true]
  · simp only [ht.translates_group_iff, Bool.decide_eq_true]

theorem Aligned.locatePTE_eq_find? (ht : t.Aligned) (sr : SRs) (va : BitVec 32) :
    t.locatePTE sr va = (t.slots (located sr va)).find? fun s =>
      Resembles (located sr va) (t.ptes s) :=
  (ht.locatePTE_eq sr va).trans (find?_slots (fun _ => rfl) fun _ => rfl).symm

theorem Translates.resembles (hs : t.Translates p s) : s ∈ t.slots p ∧ Resembles p (t.ptes s) := by
  obtain ⟨h, hg, hm⟩ := hs
  obtain ⟨hv, -, hvsid, hapi⟩ := matches_iff.1 hm
  exact ⟨mem_slots.2 ⟨h, hg⟩, resembles_iff.2 ⟨hv, hvsid, hapi⟩⟩

theorem mirror_ne : p.mirror ≠ p := by
  intro heq
  have hbit := congrArg (·.index.getLsbD 0) heq
  simp only [Page.getLsbD_index_mirror] at hbit
  grind

/-- An entry that resembles one of the page, but is not, is of the mirror of the page, and the table
    is the smallest one. -/
theorem Aligned.translates_mirror_iff (ht : t.Aligned) (hw : t.WellPlaced) :
    (s ∈ t.slots p ∧ Resembles p (t.ptes s) ∧ ¬t.Translates p s) ↔
      t.hashMask = 0#32 ∧ t.Translates p.mirror s := by
  constructor
  · rintro ⟨hmem, hres, hnot⟩
    obtain ⟨h, hg⟩ := mem_slots.1 hmem
    obtain ⟨hv, hvsid, hapi⟩ := resembles_iff.1 hres
    obtain ⟨p', hp'⟩ := hw s hv
    obtain ⟨h', hg', hm⟩ := hp'
    obtain ⟨-, -, hvsid', hapi'⟩ := matches_iff.1 hm
    have hvsid₂ := hvsid'.symm.trans hvsid
    have hapi₂ := hapi'.symm.trans hapi
    by_cases hh : h' = h
    · subst hh
      obtain rfl := ht.eq_of_group hvsid₂ hapi₂ (hg'.symm.trans hg)
      exact absurd ⟨h', hg', hm⟩ hnot
    · obtain rfl : h' = !h := Bool.eq_not_of_ne hh
      obtain ⟨hmask, rfl⟩ := ht.mirror_of_group hvsid₂ hapi₂ (hg'.symm.trans hg)
      exact ⟨hmask, _, hg', hm⟩
  · rintro ⟨hmask, hs⟩
    obtain ⟨h, hg, hm⟩ := hs
    obtain ⟨hv, -, hvsid, hapi⟩ := matches_iff.1 hm
    refine ⟨mem_slots.2 ⟨!h, hg.trans (ht.group_mirror hmask)⟩,
      resembles_iff.2 ⟨hv, hvsid, hapi.trans Page.api_mirror⟩, fun hs' => ?_⟩
    exact mirror_ne (Translates.page_unique ht ⟨h, hg, hm⟩ hs')

/-- `locatePTE` gives nothing just if neither the page it looks for nor, in the smallest table, its
    mirror has an entry. -/
theorem Aligned.locatePTE_eq_none_iff (ht : t.Aligned) (hw : t.WellPlaced) :
    t.locatePTE sr va = none ↔ t.walk (located sr va) = none ∧
      (t.hashMask = 0#32 → t.walk (located sr va).mirror = none) := by
  rw [ht.locatePTE_eq_find?, List.find?_eq_none, walk_eq_none_iff]
  constructor
  · intro hnone
    refine ⟨fun s hs => hnone s hs.resembles.1 hs.resembles.2, fun hmask => ?_⟩
    refine walk_eq_none_iff.2 fun s hs => ?_
    obtain ⟨hmem, hres, -⟩ := (ht.translates_mirror_iff hw).2 ⟨hmask, hs⟩
    exact hnone s hmem hres
  · rintro ⟨hpage, hmirror⟩ s hmem hres
    obtain ⟨hmask, hs⟩ := (ht.translates_mirror_iff hw).1 ⟨hmem, hres, hpage s⟩
    exact walk_eq_none_iff.1 (hmirror hmask) s hs

/-- In the smallest table, every entry of the mirror of the page comes after an entry of the
    page. -/
def Unshadowed (t : HashTable) (p : Page) : Prop :=
  t.hashMask = 0#32 → ∀ s, t.Translates p.mirror s →
    ∃ s', t.Translates p s' ∧ (t.slots p).idxOf s' < (t.slots p).idxOf s

/-- The page that `locatePTE` looks for is found just if it is not shadowed by its mirror. -/
theorem Aligned.locatePTE_eq_walk_located_iff (ht : t.Aligned) (hw : t.WellPlaced) :
    t.locatePTE sr va = t.walk (located sr va) ↔ t.Unshadowed (located sr va) := by
  rw [ht.locatePTE_eq_find?, ht.walk_eq_find?, Search.find?_eq_find?_iff]
  · constructor
    · intro hall hmask s hs
      obtain ⟨hmem, hres, hnot⟩ := (ht.translates_mirror_iff hw).2 ⟨hmask, hs⟩
      obtain ⟨s', -, hs', hlt⟩ := hall s hmem hres (by simpa using hnot)
      exact ⟨s', by simpa using hs', hlt⟩
    · intro hun s hmem hres hnot
      obtain ⟨hmask, hs⟩ := (ht.translates_mirror_iff hw).1 ⟨hmem, hres, by simpa using hnot⟩
      obtain ⟨s', hs', hlt⟩ := hun hmask s hs
      exact ⟨s', hs'.resembles.1, by simpa using hs', hlt⟩
  · intro s hs
    have hs' : t.Translates (located sr va) s := by simpa using hs
    exact hs'.resembles.2

end HashTable

/-- The segment register of the address has the VSID of register 0, and the page is not shadowed by
    its mirror; or neither the address nor what `locatePTE` takes for it has an entry. -/
def Locatable (u : State) (va : BitVec 32) : Prop :=
  (vsid (u.sr (va.extractLsb' 28 4)) = vsid (u.sr 0) ∧ u.tab.Unshadowed (page u.sr va)) ∨
    (u.tab.walk (page u.sr va) = none ∧ u.tab.walk (HashTable.located u.sr va) = none ∧
      (u.tab.hashMask = 0#32 → u.tab.walk (HashTable.located u.sr va).mirror = none))

/-- `locatePTE` gives what the walk gives, so that `invalidPTE` removes the translation of the
    address and no other. -/
def Agrees (u : State) (va : BitVec 32) : Prop :=
  u.tab.locatePTE u.sr va = u.tab.walk (page u.sr va) ∧
    (u.tab.AtMostOne (page u.sr va) →
      let t := u.tab.invalidPTE u.sr va
      t.walk (page u.sr va) = none ∧ ∀ p ≠ page u.sr va,
        t.walk p = u.tab.walk p ∧ t.translation p = u.tab.translation p)

variable {u : State} {va : BitVec 32}

theorem page_eq_located (hvsid : vsid (u.sr (va.extractLsb' 28 4)) = vsid (u.sr 0)) :
    page u.sr va = HashTable.located u.sr va :=
  congrArg (Page.mk · _) hvsid

/-- If the VSIDs are different, `locatePTE` and the walk agree only on that there is no entry. -/
theorem locatePTE_eq_walk_iff_of_ne (ht : u.tab.Aligned)
    (hvsid : vsid (u.sr (va.extractLsb' 28 4)) ≠ vsid (u.sr 0)) :
    u.tab.locatePTE u.sr va = u.tab.walk (page u.sr va) ↔
      u.tab.walk (page u.sr va) = none ∧ u.tab.locatePTE u.sr va = none := by
  constructor
  · intro heq
    cases hwalk : u.tab.walk (page u.sr va) with
    | none => exact ⟨rfl, heq.trans hwalk⟩
    | some s =>
      obtain ⟨h, -, hm⟩ := HashTable.translates_of_walk hwalk
      have hpage := (HashTable.matches_iff.1 hm).2.2.1
      have hloc := (HashTable.resembles_iff.1 (ht.locatePTE_some (heq.trans hwalk)).2).2.1
      exact absurd (hpage.symm.trans hloc) hvsid
  · rintro ⟨hwalk, hloc⟩
    rw [hwalk, hloc]

theorem Reachable.locatePTE_eq_walk_iff (hu : Reachable u) :
    u.tab.locatePTE u.sr va = u.tab.walk (page u.sr va) ↔ Locatable u va := by
  obtain ⟨ht, hw⟩ := hu.wellPlaced
  rw [Locatable]
  by_cases hvsid : vsid (u.sr (va.extractLsb' 28 4)) = vsid (u.sr 0)
  · rw [page_eq_located hvsid, ht.locatePTE_eq_walk_located_iff hw]
    constructor
    · exact fun hun => .inl ⟨hvsid, hun⟩
    · rintro (⟨-, hun⟩ | ⟨-, -, hmirror⟩)
      · exact hun
      · exact fun hmask s hs => absurd hs (HashTable.walk_eq_none_iff.1 (hmirror hmask) s)
  · rw [locatePTE_eq_walk_iff_of_ne ht hvsid, ht.locatePTE_eq_none_iff hw]
    exact ⟨.inr, fun h => h.resolve_left fun h' => hvsid h'.1⟩

/-- Removing the only entry of the page. -/
theorem walk_invalidPTE (ht : u.tab.Aligned)
    (heq : u.tab.locatePTE u.sr va = u.tab.walk (page u.sr va))
    (hone : u.tab.AtMostOne (page u.sr va)) :
    let t := u.tab.invalidPTE u.sr va
    t.walk (page u.sr va) = none ∧ ∀ p ≠ page u.sr va,
      t.walk p = u.tab.walk p ∧ t.translation p = u.tab.translation p := by
  obtain ⟨hloc, hinv⟩ | ⟨s, hloc, hinv⟩ := ht.invalidPTE_cases u.sr va
  · rw [hinv]
    exact ⟨heq.symm.trans hloc, fun _ _ => ⟨rfl, rfl⟩⟩
  · have hs := HashTable.translates_of_walk (heq.symm.trans hloc)
    rw [hinv]
    refine ⟨HashTable.walk_eq_none_iff.2 fun s' hs' => ?_, fun p hne => ?_⟩
    · have hs₀ := HashTable.translates_of_set_zero hs'
      exact HashTable.not_translates_zero (hone s' s hs₀ hs ▸ hs')
    · refine HashTable.walk_set (fun hp => hne ?_) HashTable.not_translates_zero
      exact hp.page_unique ht hs

theorem agrees_iff_locatable (hu : Reachable u) (va : BitVec 32) :
    Agrees u va ↔ Locatable u va := by
  rw [← hu.locatePTE_eq_walk_iff]
  constructor
  · exact fun h => h.1
  · exact fun heq => ⟨heq, walk_invalidPTE hu.wellPlaced.1 heq⟩

theorem agrees_segment_zero :
    Agrees ⟨segments, (HashTable.init 0x400000 0x200000).insertPTE segments 0x5000 0x7003⟩
      0x5000 := by
  refine (agrees_iff_locatable ⟨segments, 0x400000, 0x200000, ?_⟩ _).2 (.inl ⟨rfl, fun hmask => ?_⟩)
  · exact .tail (i := .insertPTE 0x5000 0x7003) .refl trivial rfl
  · exact absurd hmask (by decide)

/-- A translation in another segment is not found, and stays. -/
theorem not_agrees :
    let u : State :=
      ⟨segments, (HashTable.init 0x400000 0x200000).insertPTE segments 0x10000000 0x7003⟩
    Reachable u ∧ ¬Agrees u 0x10000000 := by
  have ht := HashTable.aligned_init 0x400000 0x200000
  refine ⟨⟨segments, 0x400000, 0x200000, ?_⟩, fun h => ?_⟩
  · exact .tail (i := .insertPTE 0x10000000 0x7003) .refl trivial rfl
  · have hmiss := ((locatePTE_eq_walk_iff_of_ne ht.insertPTE (by decide)).1 h.1).1
    exact HashTable.walk_eq_none_iff.1 hmiss _ ht.translates_insertPTE

end Mmu

end DemoOs
