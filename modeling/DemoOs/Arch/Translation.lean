import DemoOs.Arch.PageWalk
import DemoOs.Lib.Run

/-!
# Translations

Which pages the hash table translates, and how `insertPTE` and `invalidPTE` change that. Both write
one entry (`set`), and an entry translates at most one page (`Translates.page_unique`), so all other
pages are left alone.

* `insertPTE` puts the entry where the walk finds it. Only if both groups of the page are full, it
  overwrites the entry of another page.
* `invalidPTE` looks the entry up by itself (`locatePTE`): under the VSID of segment register 0, and
  without looking at the bit `H`.
* An entry the page has already is not looked for by `insertPTE`. If there is none, the table never
  has two entries for a page.
-/

namespace DemoOs

namespace Mmu

namespace HashTable

variable {t : HashTable} {p p' : Page} {h : Bool} {s s' : Slot} {e : PTE} {P Q : PTE → Bool}
  {g : BitVec 32}

/-! ## Searching a group -/

/-- No entry of the group is found. -/
theorem findIn_eq_none_iff : t.findIn g P = none ↔ ∀ i, P (t.ptes (g, i)) = false := by
  simp only [findIn, Option.map_eq_none_iff, List.find?_eq_none, List.mem_finRange, true_implies,
    Bool.not_eq_true]

/-- An entry of the group is found. -/
theorem findIn_some (hs : t.findIn g P = some s) : s.1 = g ∧ P (t.ptes s) = true := by
  obtain ⟨i, hi, rfl⟩ := Option.map_eq_some_iff.1 hs
  exact ⟨rfl, by simpa using List.find?_some hi⟩

/-- The entry in the slot translates the page. -/
def Translates (t : HashTable) (p : Page) (s : Slot) : Prop :=
  ∃ h, s.1 = t.group p h ∧ p.Matches h (t.ptes s) = true

/-- Every valid entry is in the group that its bit `H`, its VSID and its abbreviated index, with the
    rest of some index, select. -/
def WellPlaced (t : HashTable) : Prop := ∀ s, (t.ptes s).v → ∃ p, t.Translates p s

/-- No two entries translate the page. -/
def AtMostOne (t : HashTable) (p : Page) : Prop :=
  ∀ s s', t.Translates p s → t.Translates p s' → s = s'

/-- All entries of both groups of the page are valid. -/
def Full (t : HashTable) (p : Page) : Prop := ∀ h i, (t.ptes (t.group p h, i)).v

/-- An entry is found by the walk if it is valid, and is of the page. -/
theorem matches_iff :
    p.Matches h e ↔ e.v ∧ e.h = h ∧ e.vsid = p.vsid ∧ e.api = p.api := by
  simp only [Page.Matches, Bool.and_eq_true, beq_iff_eq, and_assoc]

/-- An entry that translates is valid. -/
theorem Translates.valid (hs : t.Translates p s) : (t.ptes s).v := by
  obtain ⟨h, -, hm⟩ := hs
  exact (matches_iff.1 hm).1

/-- An entry translates one page only. -/
theorem Translates.page_unique (ht : t.Aligned) (hs : t.Translates p s) (hs' : t.Translates p' s) :
    p = p' := by
  obtain ⟨h, hg, hm⟩ := hs
  obtain ⟨h', hg', hm'⟩ := hs'
  obtain ⟨-, rfl, hvsid, hapi⟩ := matches_iff.1 hm
  obtain ⟨-, rfl, hvsid', hapi'⟩ := matches_iff.1 hm'
  exact ht.eq_of_group (hvsid.symm.trans hvsid') (hapi.symm.trans hapi') (hg.symm.trans hg')

/-- The walk finds nothing if no entry translates the page. -/
theorem walk_eq_none_iff : t.walk p = none ↔ ∀ s, ¬t.Translates p s := by
  rw [walk, Option.or_eq_none_iff, findIn_eq_none_iff, findIn_eq_none_iff]
  constructor
  · rintro ⟨h₀, h₁⟩ ⟨g, i⟩ ⟨h, rfl, hm⟩
    cases h with
    | false => exact absurd hm (Bool.eq_false_iff.1 (h₀ i))
    | true => exact absurd hm (Bool.eq_false_iff.1 (h₁ i))
  · intro hnone
    exact ⟨fun i => Bool.eq_false_iff.2 fun hm => hnone _ ⟨false, rfl, hm⟩,
      fun i => Bool.eq_false_iff.2 fun hm => hnone _ ⟨true, rfl, hm⟩⟩

/-- What the walk finds translates the page. -/
theorem translates_of_walk (hs : t.walk p = some s) : t.Translates p s := by
  rcases Option.or_eq_some_iff.1 hs with h₀ | ⟨-, h₁⟩
  · exact ⟨false, findIn_some h₀⟩
  · exact ⟨true, findIn_some h₁⟩

/-- The only entry for a page is found. -/
theorem walk_eq_some_of_unique (hs : t.Translates p s) (hone : t.AtMostOne p) :
    t.walk p = some s := by
  cases hwalk : t.walk p with
  | none => exact absurd hs (walk_eq_none_iff.1 hwalk s)
  | some s' => rw [hone s' s (translates_of_walk hwalk) hs]

/-! ## Writing an entry -/

/-- Writing an entry. -/
def set (t : HashTable) (s : Slot) (e : PTE) : HashTable :=
  { t with ptes := Function.update t.ptes s e }

theorem group_set : (t.set s e).group p h = t.group p h := rfl

theorem ptes_set_self : (t.set s e).ptes s = e := Function.update_self ..

theorem ptes_set_of_ne (hne : s' ≠ s) : (t.set s e).ptes s' = t.ptes s' :=
  Function.update_of_ne hne ..

theorem Aligned.set (ht : t.Aligned) : (t.set s e).Aligned := { ht with }

/-- The entry written translates the pages it matches. -/
theorem translates_set_self :
    (t.set s e).Translates p s ↔ ∃ h, s.1 = t.group p h ∧ p.Matches h e = true := by
  simp only [Translates, group_set, ptes_set_self]

/-- The other entries translate the pages they did. -/
theorem translates_set_of_ne (hne : s' ≠ s) :
    (t.set s e).Translates p s' ↔ t.Translates p s' := by
  simp only [Translates, group_set, ptes_set_of_ne hne]

/-- What is found in a group does not change if the entry written was not found there, and is
    not. -/
theorem findIn_set (hold : s.1 = g → P (t.ptes s) = false) (hnew : s.1 = g → P e = false) :
    (t.set s e).findIn g P = t.findIn g P := by
  refine congrArg (Option.map _) (List.find?_congr fun i _ => ?_)
  by_cases hi : (g, i) = s
  · subst hi
    rw [ptes_set_self, hold rfl, hnew rfl]
  · rw [ptes_set_of_ne hi]

/-- A page that neither the entry overwritten nor the entry written translates is looked up as
    before. -/
theorem walk_set (hold : ¬t.Translates p s) (hnew : ¬(t.set s e).Translates p s) :
    (t.set s e).walk p = t.walk p ∧ (t.set s e).translation p = t.translation p := by
  rw [translates_set_self] at hnew
  have hfind (h : Bool) : (t.set s e).findIn (t.group p h) (p.Matches h) =
      t.findIn (t.group p h) (p.Matches h) := by
    refine findIn_set (fun hg => ?_) fun hg => ?_
    · exact Bool.eq_false_iff.2 fun hm => hold ⟨h, hg, hm⟩
    · exact Bool.eq_false_iff.2 fun hm => hnew ⟨h, hg, hm⟩
  have hwalk : (t.set s e).walk p = t.walk p := by
    simp only [walk, group_set, hfind]
  refine ⟨hwalk, ?_⟩
  rw [translation, hwalk, translation]
  refine Option.map_congr fun s' hs' => ?_
  have hne : s' ≠ s := fun h => hold (h ▸ translates_of_walk hs')
  rw [ptes_set_of_ne hne]

/-! ## Inserting an entry -/

variable {sr : SRs} {va entry : BitVec 32}

/-- The slot `findPTE` gives is in the group its flag tells, and it is in use only if both groups
    are full. -/
theorem Aligned.findPTE_spec (ht : t.Aligned) (sr : SRs) (va : BitVec 32) :
    (t.findPTE sr va).1.1 = t.group (page sr va) (t.findPTE sr va).2 ∧
      ((t.ptes (t.findPTE sr va).1).v → t.Full (page sr va)) := by
  have h₀ : t.getPTEG (primaryHash va (vsid (getSR sr va))) = t.group (page sr va) false :=
    ht.getPTEG_primaryHash _ _
  have h₁ : t.getPTEG (secondaryHash (primaryHash va (vsid (getSR sr va)))) =
      t.group (page sr va) true := ht.getPTEG_secondaryHash _ _
  simp only [findPTE, h₀, h₁]
  -- An invalid entry of either group is taken; a valid one only if both are full.
  have hinvalid {h : Bool} {s : Slot} (hs : t.findInvalidPTE (t.group (page sr va) h) = some s) :
      s.1 = t.group (page sr va) h ∧ ((t.ptes s).v → t.Full (page sr va)) := by
    obtain ⟨hg, hv⟩ := findIn_some hs
    exact ⟨hg, fun hvalid => by simp [hvalid] at hv⟩
  cases hp : t.findInvalidPTE (t.group (page sr va) false) with
  | some s => exact hinvalid hp
  | none =>
    cases hq : t.findInvalidPTE (t.group (page sr va) true) with
    | some s => exact hinvalid hq
    | none =>
      have hfull : t.Full (page sr va) := by
        intro h i
        cases h with
        | false => simpa using findIn_eq_none_iff.1 hp i
        | true => simpa using findIn_eq_none_iff.1 hq i
      refine ⟨?_, fun _ => hfull⟩
      dsimp only
      split
      · exact (findIn_some ‹_›).1
      · split
        · exact (findIn_some ‹_›).1
        · rfl

/-- `insertPTE` writes one entry. -/
theorem insertPTE_eq : t.insertPTE sr va entry = t.set (t.findPTE sr va).1
    (.buildPTE va entry (page sr va).vsid (t.findPTE sr va).2) := rfl

/-- The entry written translates the page. -/
theorem Aligned.translates_insertPTE (ht : t.Aligned) :
    (t.insertPTE sr va entry).Translates (page sr va) (t.findPTE sr va).1 := by
  rw [insertPTE_eq, translates_set_self]
  refine ⟨_, (ht.findPTE_spec sr va).1, matches_iff.2 ⟨rfl, rfl, rfl, ?_⟩⟩
  exact PTE.virtAddr2API_eq va _

theorem Aligned.insertPTE (ht : t.Aligned) : (t.insertPTE sr va entry).Aligned := ht.set

/-- Entries are where they belong after an insertion. -/
theorem Aligned.wellPlaced_insertPTE (ht : t.Aligned) (hw : t.WellPlaced) :
    (t.insertPTE sr va entry).WellPlaced := by
  intro s hs
  by_cases hne : s = (t.findPTE sr va).1
  · exact ⟨page sr va, hne ▸ ht.translates_insertPTE⟩
  · rw [insertPTE_eq, ptes_set_of_ne hne] at hs
    obtain ⟨p, hp⟩ := hw s hs
    exact ⟨p, (translates_set_of_ne hne).2 hp⟩

/-- All pages but that of the entry written and that of the entry overwritten are looked up as
    before. -/
theorem Aligned.walk_insertPTE_of_ne (ht : t.Aligned) (hne : p ≠ page sr va)
    (hvictim : ¬t.Translates p (t.findPTE sr va).1) :
    (t.insertPTE sr va entry).walk p = t.walk p ∧
      (t.insertPTE sr va entry).translation p = t.translation p := by
  refine walk_set hvictim fun hp => hne ?_
  exact hp.page_unique ht.set ht.translates_insertPTE

/-- No other entry translates the page than the one written, if no other did. -/
theorem atMostOne_insertPTE
    (hfresh : ∀ s, t.Translates (page sr va) s → s = (t.findPTE sr va).1) :
    (t.insertPTE sr va entry).AtMostOne (page sr va) := by
  have hslot {s : Slot} (hs : (t.insertPTE sr va entry).Translates (page sr va) s) :
      s = (t.findPTE sr va).1 := by
    by_contra hne
    exact hne (hfresh s ((translates_set_of_ne hne).1 hs))
  exact fun s s' hs hs' => (hslot hs).trans (hslot hs').symm

/-! ## Removing an entry -/

/-- The page `locatePTE` looks for. -/
def located (sr : SRs) (va : BitVec 32) : Page := ⟨vsid (sr 0), va.extractLsb' 12 16⟩

/-- What `locateThePTE` compares. -/
def Resembles (p : Page) (e : PTE) : Bool := e.v && e.vsid == p.vsid && e.api == p.api

/-- An entry is taken for that of the page if it is valid, and has its VSID and its abbreviated
    index. -/
theorem resembles_iff : Resembles p e ↔ e.v ∧ e.vsid = p.vsid ∧ e.api = p.api := by
  simp only [Resembles, Bool.and_eq_true, beq_iff_eq, and_assoc]

/-- `locatePTE` searches both groups of the page it looks for. -/
theorem Aligned.locatePTE_eq (ht : t.Aligned) (sr : SRs) (va : BitVec 32) :
    t.locatePTE sr va = (t.findIn (t.group (located sr va) false) (Resembles (located sr va))).or
      (t.findIn (t.group (located sr va) true) (Resembles (located sr va))) := by
  rw [locatePTE, getSR_shift, ht.getPTEG_primaryHash, ht.getPTEG_secondaryHash,
    PTE.virtAddr2API_eq va (vsid (sr 0))]
  rfl

/-- The entry `locatePTE` gives. -/
theorem Aligned.locatePTE_some (ht : t.Aligned) (hs : t.locatePTE sr va = some s) :
    (∃ h, s.1 = t.group (located sr va) h) ∧ Resembles (located sr va) (t.ptes s) := by
  rw [ht.locatePTE_eq] at hs
  rcases Option.or_eq_some_iff.1 hs with h₀ | ⟨-, h₁⟩
  · exact ⟨⟨false, (findIn_some h₀).1⟩, (findIn_some h₀).2⟩
  · exact ⟨⟨true, (findIn_some h₁).1⟩, (findIn_some h₁).2⟩

/-- `invalidPTE` removes the entry `locatePTE` gives, if any. -/
theorem Aligned.invalidPTE_cases (ht : t.Aligned) (sr : SRs) (va : BitVec 32) :
    (t.locatePTE sr va = none ∧ t.invalidPTE sr va = t) ∨
      ∃ s, t.locatePTE sr va = some s ∧ t.invalidPTE sr va = t.set s .zero := by
  cases hloc : t.locatePTE sr va with
  | none => exact .inl ⟨rfl, by rw [invalidPTE, hloc]⟩
  | some s =>
    have hvalid := (resembles_iff.1 (ht.locatePTE_some hloc).2).1
    refine .inr ⟨s, rfl, ?_⟩
    rw [invalidPTE, hloc]
    exact if_pos hvalid

/-- A zeroed entry translates nothing. -/
theorem not_translates_zero : ¬(t.set s .zero).Translates p s := by
  intro hs
  have hvalid := hs.valid
  rw [ptes_set_self] at hvalid
  exact Bool.false_ne_true hvalid

/-- Zeroing an entry makes none translate. -/
theorem translates_of_set_zero (hs : (t.set s .zero).Translates p s') : t.Translates p s' := by
  by_cases hne : s' = s
  · exact absurd (hne ▸ hs) not_translates_zero
  · exact (translates_set_of_ne hne).1 hs

theorem Aligned.invalidPTE (ht : t.Aligned) : (t.invalidPTE sr va).Aligned := by
  obtain ⟨-, heq⟩ | ⟨s, -, heq⟩ := ht.invalidPTE_cases sr va
  · rwa [heq]
  · rw [heq]
    exact ht.set

/-- Removing an entry makes no other one translate a page. -/
theorem Aligned.translates_of_invalidPTE (ht : t.Aligned)
    (hs : (t.invalidPTE sr va).Translates p s) :
    t.Translates p s ∧ (t.invalidPTE sr va).ptes s = t.ptes s := by
  obtain ⟨-, heq⟩ | ⟨s₀, -, heq⟩ := ht.invalidPTE_cases sr va
  · rw [heq] at hs ⊢
    exact ⟨hs, rfl⟩
  · rw [heq] at hs ⊢
    have hne : s ≠ s₀ := fun h => not_translates_zero (h ▸ hs)
    exact ⟨(translates_set_of_ne hne).1 hs, ptes_set_of_ne hne⟩

/-- Entries are where they belong after a removal. -/
theorem Aligned.wellPlaced_invalidPTE (ht : t.Aligned) (hw : t.WellPlaced) :
    (t.invalidPTE sr va).WellPlaced := by
  obtain ⟨-, heq⟩ | ⟨s₀, -, heq⟩ := ht.invalidPTE_cases sr va
  · rwa [heq]
  · rw [heq]
    intro s hs
    have hne : s ≠ s₀ := by
      rintro rfl
      rw [ptes_set_self] at hs
      exact Bool.false_ne_true hs
    rw [ptes_set_of_ne hne] at hs
    obtain ⟨p, hp⟩ := hw s hs
    exact ⟨p, (translates_set_of_ne hne).2 hp⟩

end HashTable

/-! ## Reachable tables -/

/-- The segment registers and the table. -/
structure State where
  sr : SRs
  tab : HashTable

inductive Op
  | insertPTE (virtAddr phyAddr : BitVec 32)
  | invalidPTE (virAddr : BitVec 32)
  | setSR (i : BitVec 4) (val : BitVec 32)

def step (u : State) : Op → Option State
  | .insertPTE virtAddr phyAddr => some { u with tab := u.tab.insertPTE u.sr virtAddr phyAddr }
  | .invalidPTE virAddr => some { u with tab := u.tab.invalidPTE u.sr virAddr }
  | .setSR i val => some { u with sr := Function.update u.sr i val }

/-- The states reached from a zeroed table. -/
def Reachable (u : State) : Prop :=
  ∃ sr phyAddr size, Run step (fun _ _ => True) ⟨sr, .init phyAddr size⟩ u

/-- The segment registers as `MMU::init` sets them. -/
def segments : SRs := fun i => i.setWidth 32

/-- In a reachable table, all entries are where they belong. -/
theorem Reachable.wellPlaced {u : State} (hu : Reachable u) : u.tab.Aligned ∧ u.tab.WellPlaced := by
  obtain ⟨sr, phyAddr, size, hrun⟩ := hu
  refine hrun.invariant (I := fun u => u.tab.Aligned ∧ u.tab.WellPlaced) ?_
    ⟨HashTable.aligned_init phyAddr size, fun s hs => absurd hs Bool.false_ne_true⟩
  rintro u op u' ⟨ht, hw⟩ - hstep
  cases op with
  | insertPTE va entry =>
    obtain rfl := Option.some.inj hstep
    exact ⟨ht.insertPTE, ht.wellPlaced_insertPTE hw⟩
  | invalidPTE va =>
    obtain rfl := Option.some.inj hstep
    exact ⟨ht.invalidPTE, ht.wellPlaced_invalidPTE hw⟩
  | setSR i val =>
    obtain rfl := Option.some.inj hstep
    exact ⟨ht, hw⟩

/-- A removal does not change the size. -/
theorem HashTable.hashMask_invalidPTE {t : HashTable} {sr : SRs} {va : BitVec 32} :
    (t.invalidPTE sr va).hashMask = t.hashMask := by
  unfold HashTable.invalidPTE
  split
  · rfl
  · split_ifs <;> rfl

/-- The size of the table stays the same. -/
theorem hashMask_of_run {u u' : State} (hrun : Run step (fun _ _ => True) u u') :
    u'.tab.hashMask = u.tab.hashMask := by
  refine hrun.invariant (I := fun u' => u'.tab.hashMask = u.tab.hashMask) ?_ rfl
  intro u₁ op u₂ hmask _ hstep
  cases op with
  | insertPTE va entry => exact Option.some.inj hstep ▸ hmask
  | invalidPTE va =>
    obtain rfl := Option.some.inj hstep
    exact HashTable.hashMask_invalidPTE.trans hmask
  | setSR i val => exact Option.some.inj hstep ▸ hmask

/-- An entry inserted for a page that is not translated is found by the walk, all entries stay where
    the walk looks for them, and the other pages are looked up as before, but for the one whose
    entry was overwritten, both groups being full. -/
theorem walk_insertPTE {u : State} {va entry : BitVec 32} (hu : Reachable u)
    (hmiss : u.tab.walk (page u.sr va) = none) :
    let t := u.tab.insertPTE u.sr va entry
    (∃ s, t.walk (page u.sr va) = some s ∧ (t.ptes s).phyWord = entry) ∧ t.WellPlaced ∧
      ∃ victim : Option Page,
        (∀ p ≠ page u.sr va, p ∉ victim →
          t.walk p = u.tab.walk p ∧ t.translation p = u.tab.translation p) ∧
        ∀ p ∈ victim, u.tab.Full (page u.sr va) ∧
          u.tab.Translates p (u.tab.findPTE u.sr va).1 := by
  obtain ⟨ht, hw⟩ := hu.wellPlaced
  have hfresh (s : Slot) (hs : u.tab.Translates (page u.sr va) s) :
      s = (u.tab.findPTE u.sr va).1 := absurd hs (HashTable.walk_eq_none_iff.1 hmiss s)
  refine ⟨⟨_, HashTable.walk_eq_some_of_unique ht.translates_insertPTE
    (HashTable.atMostOne_insertPTE hfresh), ?_⟩, ht.wellPlaced_insertPTE hw, ?_⟩
  · rw [HashTable.insertPTE_eq, HashTable.ptes_set_self]
    rfl
  by_cases hvalid : (u.tab.ptes (u.tab.findPTE u.sr va).1).v
  · -- The entry overwritten is of one page only, for which it was well placed.
    obtain ⟨victim, hvictim⟩ := hw _ hvalid
    refine ⟨some victim, fun p hne hp => ht.walk_insertPTE_of_ne hne fun hold => ?_, ?_⟩
    · exact hp (congrArg some (hvictim.page_unique ht hold))
    · rintro p ⟨⟩
      exact ⟨(ht.findPTE_spec u.sr va).2 hvalid, hvictim⟩
  · exact ⟨none, fun p hne _ => ht.walk_insertPTE_of_ne hne fun hold => hvalid hold.valid, nofun⟩

/-- Into an empty table. -/
theorem walk_insertPTE_init :
    let t := (HashTable.init 0x400000 0x200000).insertPTE segments 0x12345000 0x7003
    ∃ s, t.walk (page segments 0x12345000) = some s ∧ (t.ptes s).phyWord = 0x7003 := by
  refine (walk_insertPTE (u := ⟨segments, .init 0x400000 0x200000⟩) ⟨_, _, _, .refl⟩ ?_).1
  exact HashTable.walk_eq_none_iff.2 fun s hs => Bool.false_ne_true hs.valid

/-! ## Entries of a page -/

/-- The table, and what was last inserted for each page. -/
structure History where
  state : State
  last : Page → Option (BitVec 32)

namespace History

variable {H H' : History}

def step (H : History) (op : Op) : Option History :=
  (Mmu.step H.state op).map fun u =>
    { state := u
      last := match op with
        | .insertPTE virtAddr phyAddr =>
          Function.update H.last (page H.state.sr virtAddr) (some phyAddr)
        | _ => H.last }

/-- An entry is only inserted for a page that has none, or has the one to be overwritten only. -/
def Fresh (H : History) : Op → Prop
  | .insertPTE virtAddr _ => ∀ s, H.state.tab.Translates (page H.state.sr virtAddr) s →
    s = (H.state.tab.findPTE H.state.sr virtAddr).1
  | _ => True

/-- Every page has at most one entry, the one last inserted for it. -/
structure Latest (H : History) : Prop where
  aligned : H.state.tab.Aligned
  one : ∀ p, H.state.tab.AtMostOne p
  last : ∀ p s, H.state.tab.Translates p s → H.last p = some (H.state.tab.ptes s).phyWord

/-- An insertion, for a page that has no other entry. -/
theorem Latest.insertPTE {va entry : BitVec 32} (h : Latest H)
    (hfresh : Fresh H (.insertPTE va entry)) (hstep : H.step (.insertPTE va entry) = some H') :
    Latest H' := by
  obtain rfl := Option.some.inj hstep
  have ht := h.aligned
  have hnew : (H.state.tab.insertPTE H.state.sr va entry).Translates (page H.state.sr va)
      (H.state.tab.findPTE H.state.sr va).1 := ht.translates_insertPTE
  -- An entry of another page is not the one just written.
  have hold {p : Page} {s : Slot} (hne : p ≠ page H.state.sr va)
      (hs : (H.state.tab.insertPTE H.state.sr va entry).Translates p s) :
      s ≠ (H.state.tab.findPTE H.state.sr va).1 ∧ H.state.tab.Translates p s := by
    have hs' : s ≠ (H.state.tab.findPTE H.state.sr va).1 :=
      fun heq => hne ((heq ▸ hs).page_unique ht.insertPTE hnew)
    exact ⟨hs', (HashTable.translates_set_of_ne hs').1 hs⟩
  refine ⟨ht.insertPTE, fun p => ?_, fun p s hs => ?_⟩
  · by_cases hp : p = page H.state.sr va
    · exact hp ▸ HashTable.atMostOne_insertPTE hfresh
    · exact fun s s' hs hs' => h.one p s s' (hold hp hs).2 (hold hp hs').2
  · by_cases hp : p = page H.state.sr va
    · subst hp
      rw [HashTable.atMostOne_insertPTE hfresh s _ hs hnew]
      simp only [HashTable.insertPTE_eq, HashTable.ptes_set_self, Function.update_self]
      rfl
    · obtain ⟨hne, hs'⟩ := hold hp hs
      simp only [Function.update_of_ne hp, HashTable.insertPTE_eq, HashTable.ptes_set_of_ne hne]
      exact h.last p s hs'

/-- A removal. -/
theorem Latest.invalidPTE {va : BitVec 32} (h : Latest H)
    (hstep : H.step (.invalidPTE va) = some H') : Latest H' := by
  obtain rfl := Option.some.inj hstep
  have ht := h.aligned
  refine ⟨ht.invalidPTE, fun p s s' hs hs' => ?_, fun p s hs => ?_⟩
  · exact h.one p s s' (ht.translates_of_invalidPTE hs).1 (ht.translates_of_invalidPTE hs').1
  · obtain ⟨hs', hptes⟩ := ht.translates_of_invalidPTE hs
    exact (h.last p s hs').trans (congrArg (some ·.phyWord) hptes.symm)

/-- Every step. -/
theorem Latest.step {op : Op} (h : Latest H) (hfresh : Fresh H op) (hstep : H.step op = some H') :
    Latest H' := by
  cases op with
  | insertPTE va entry => exact h.insertPTE hfresh hstep
  | invalidPTE va => exact h.invalidPTE hstep
  | setSR i val =>
    obtain rfl := Option.some.inj hstep
    exact ⟨h.aligned, h.one, h.last⟩

/-- As long as entries are only inserted for pages that have no other, every page has at most one,
    and if it is translated, by what was last inserted for it. -/
theorem latest_of_run {sr : SRs} {phyAddr : BitVec 32} {size : ℕ}
    (hrun : Run step Fresh ⟨⟨sr, .init phyAddr size⟩, fun _ => none⟩ H) (p : Page) :
    H.state.tab.AtMostOne p ∧
      ∀ w, H.state.tab.translation p = some w → H.last p = some w := by
  have hinit : Latest ⟨⟨sr, .init phyAddr size⟩, fun _ => none⟩ :=
    ⟨HashTable.aligned_init phyAddr size, fun _ _ _ hs => absurd hs.valid Bool.false_ne_true,
      fun _ _ hs => absurd hs.valid Bool.false_ne_true⟩
  have h : Latest H := hrun.invariant Latest.step hinit
  refine ⟨h.one p, fun w hw => ?_⟩
  obtain ⟨s, hs, rfl⟩ := Option.map_eq_some_iff.1 hw
  exact h.last p s (HashTable.translates_of_walk hs)

/-- Two pages are mapped, the first is unmapped and mapped to another frame. -/
theorem latest_of_insertPTE : ∃ H, Run step Fresh
      ⟨⟨segments, .init 0x400000 0x200000⟩, fun _ => none⟩ H ∧
    H.state.tab.AtMostOne (page segments 0x5000) ∧ H.state.tab.AtMostOne (page segments 0x6000) ∧
    H.state.tab.translation (page segments 0x5000) = some 0x8003 ∧
    H.last (page segments 0x5000) = some 0x8003 := by
  let H₀ : History := ⟨⟨segments, .init 0x400000 0x200000⟩, fun _ => none⟩
  have hrun₁ : Run step Fresh H₀ _ :=
    .tail (i := .insertPTE 0x5000 0x7003) .refl (fun s hs => absurd hs.valid Bool.false_ne_true) rfl
  have hrun₂ : Run step Fresh H₀ _ := hrun₁.tail (i := .insertPTE 0x6000 0x9003)
    (fun s hs => absurd hs (HashTable.walk_eq_none_iff.1 (by decide) s)) rfl
  have hrun₃ : Run step Fresh H₀ _ := hrun₂.tail (i := .invalidPTE 0x5000) trivial rfl
  have hrun : Run step Fresh H₀ _ := hrun₃.tail (i := .insertPTE 0x5000 0x8003)
    (fun s hs => absurd hs (HashTable.walk_eq_none_iff.1 (by decide) s)) rfl
  have htranslation := (latest_of_run hrun (page segments 0x5000)).2 0x8003
  exact ⟨_, hrun, (latest_of_run hrun _).1, (latest_of_run hrun _).1, by decide,
    htranslation (by decide)⟩

/-- Of two entries for a page, the walk finds the one that was inserted first. -/
theorem not_latest : ∃ H, Run step (fun _ _ => True)
      ⟨⟨segments, .init 0x400000 0x200000⟩, fun _ => none⟩ H ∧
    ¬H.state.tab.AtMostOne (page segments 0x5000) ∧
    H.state.tab.translation (page segments 0x5000) = some 0x7003 ∧
    H.last (page segments 0x5000) = some 0x8003 := by
  refine ⟨_, (Run.refl.tail (i := .insertPTE 0x5000 0x7003) trivial rfl).tail
    (i := .insertPTE 0x5000 0x8003) trivial rfl, fun hone => ?_, ?_, ?_⟩
  · exact absurd (hone (0x400140, 0) (0x400140, 1) ⟨false, by decide⟩ ⟨false, by decide⟩)
      (by decide)
  · decide
  · decide

end History

end Mmu

end DemoOs
