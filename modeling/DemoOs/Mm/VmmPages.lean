import DemoOs.Mm.Vmm
import Mathlib.Data.List.Range

/-!
# Conservation of pages

The pages are on the lists of a well-formed manager (`Pages`), each on one of them, and the counter
is the length of the free list. Every function moves a page from one list to the end of another
(`move`), so that pages are neither lost nor handed out twice.

A function that walks along a list meets its pages in their order, and gets back to the header:
`findPage_eq` and `Pages.releasePages` say so of the two loops.

All this is so if the lock of the free list is initialised. If it is not, as in the kernel, the
calls that take it do not return: those that are right are the unmappings that find no page
(`conserved_iff`).
-/

namespace DemoOs

namespace Vmm

open Links

/-- The ring of a list of pages. -/
def rings (L : PageHdr → List ℕ) (h : PageHdr) : Cycle PageNode :=
  ↑(.hdr h :: (L h).map .page : List PageNode)

/-- The lists `L` of the `N` pages, by their headers. -/
structure Pages (N : ℕ) (L : PageHdr → List ℕ) (v : Vmm) : Prop where
  rings : v.links.Rings (rings L)
  mem_iff : ∀ i, (∃ h, i ∈ L h) ↔ i < N
  counter : v.freePageCounter = (L .free).length
  bound : N < 2 ^ 31
  phy : ∀ i < N, ∀ j < N, v.phyAddr i = v.phyAddr j → i = j

variable {v v' : Vmm} {N i pid tid : ℕ} {L : PageHdr → List ℕ} {h h₁ h₂ : PageHdr}
    {l l₁ l₂ : List ℕ}
  {links : Links PageNode} {virAddr flags : BitVec 32} {isIdentityMapping : Bool}

theorem mem_rings : .page i ∈ rings L h ↔ i ∈ L h := by
  simp [rings]

theorem update_rings : Function.update (rings L) h ↑(.hdr h :: l.map .page : List PageNode) =
    rings (Function.update L h l) := by
  funext h'
  by_cases hh : h' = h
  · subst hh
    simp only [rings, Function.update_self]
  · simp only [rings, Function.update_of_ne hh]

/-! ## Moving a page -/

/-- The lists after a page has left the list `h₁`, which is now `l`, for the end of `h₂`. -/
def move (L : PageHdr → List ℕ) (h₁ : PageHdr) (l : List ℕ) (h₂ : PageHdr) (i : ℕ) :
    PageHdr → List ℕ :=
  Function.update (Function.update L h₁ l) h₂ (L h₂ ++ [i])

theorem move_self : move L h₁ l h₂ i h₂ = L h₂ ++ [i] := Function.update_self ..

theorem move_of_ne (hne : h₁ ≠ h₂) : move L h₁ l h₂ i h₁ = l := by
  rw [move, Function.update_of_ne hne, Function.update_self]

/-- A page taken off a list is on none. -/
theorem erase_page (hr : links.Rings (rings L)) (hi : L h = l₁ ++ i :: l₂) :
    ∃ links', links.erase (.page i) = some links' ∧
      links'.Rings (rings (Function.update L h (l₁ ++ l₂))) ∧
      ∀ h', i ∉ Function.update L h (l₁ ++ l₂) h' := by
  have hring :
      rings L h = ↑(.hdr h :: (l₁.map .page ++ .page i :: l₂.map .page) : List PageNode) := by
    rw [rings, hi, List.map_append, List.map_cons]
  have hnd : (l₁ ++ i :: l₂).Nodup := by
    have hcycle := Cycle.nodup_coe_iff.1 (hr.ring h).nodup
    rw [hi] at hcycle
    exact (List.nodup_cons.1 hcycle).2.of_map _
  obtain ⟨links', herase, hr'⟩ := hr.erase_middle hring
  rw [← List.map_append, update_rings] at hr'
  refine ⟨links', herase, hr', fun h' hmem => ?_⟩
  by_cases hh : h' = h
  · subst hh
    rw [Function.update_self] at hmem
    exact (List.nodup_cons.1 (List.nodup_middle.1 hnd)).1 hmem
  · rw [Function.update_of_ne hh] at hmem
    exact hh (hr.disjoint (mem_rings.2 hmem) (mem_rings.2 (by rw [hi]; simp)))

/-- A page on no list is put at the end of one. -/
theorem insert_page (h : PageHdr) (hr : links.Rings (rings L)) (hoff : ∀ h', i ∉ L h') :
    ∃ links', links.insertBefore (.hdr h) (.page i) = some links' ∧
      links'.Rings (rings (Function.update L h (L h ++ [i]))) := by
  obtain ⟨links', hins, hr'⟩ := hr.insertBefore (i := h) (x := .page i) rfl
    fun h' hmem => hoff h' (mem_rings.1 hmem)
  refine ⟨links', hins, ?_⟩
  rwa [← update_rings, List.map_append]

/-- A page moved from one list to another. -/
theorem move_page (l₁ : List ℕ) (hr : links.Rings (rings L)) (hne : h₁ ≠ h₂)
    (hi : L h₁ = l₁ ++ i :: l₂) :
    ∃ links₁ links₂, links.erase (.page i) = some links₁ ∧
      links₁.insertBefore (.hdr h₂) (.page i) = some links₂ ∧
      links₂.Rings (rings (move L h₁ (l₁ ++ l₂) h₂ i)) := by
  obtain ⟨links₁, herase, hr₁, hoff⟩ := erase_page hr hi
  obtain ⟨links₂, hins, hr₂⟩ := insert_page h₂ hr₁ hoff
  rw [Function.update_of_ne hne.symm] at hr₂
  exact ⟨links₁, links₂, herase, hins, hr₂⟩

/-- The pages on the lists stay the same. -/
theorem mem_move_iff (l₁ : List ℕ) (hne : h₁ ≠ h₂) (hi : L h₁ = l₁ ++ i :: l₂) (j : ℕ) :
    (∃ h, j ∈ move L h₁ (l₁ ++ l₂) h₂ i h) ↔ ∃ h, j ∈ L h := by
  constructor
  · rintro ⟨h, hj⟩
    by_cases hh₂ : h = h₂
    · subst hh₂
      rw [move_self, List.mem_append, List.mem_singleton] at hj
      rcases hj with hj | rfl
      · exact ⟨h, hj⟩
      · exact ⟨h₁, by rw [hi]; simp⟩
    · rw [move, Function.update_of_ne hh₂] at hj
      by_cases hh₁ : h = h₁
      · subst hh₁
        rw [Function.update_self, List.mem_append] at hj
        exact ⟨h, by rw [hi]; simp only [List.mem_append, List.mem_cons]; tauto⟩
      · exact ⟨h, by rwa [Function.update_of_ne hh₁] at hj⟩
  · rintro ⟨h, hj⟩
    -- The page that is moved is in its new list.
    by_cases hji : j = i
    · exact ⟨h₂, by rw [move_self, hji]; simp⟩
    · refine ⟨h, ?_⟩
      by_cases hh₂ : h = h₂
      · subst hh₂
        rw [move_self]
        exact List.mem_append_left _ hj
      · rw [move, Function.update_of_ne hh₂]
        by_cases hh₁ : h = h₁
        · subst hh₁
          rw [Function.update_self]
          rw [hi] at hj
          simp only [List.mem_append, List.mem_cons] at hj ⊢
          tauto
        · rwa [Function.update_of_ne hh₁]

/-! ## What the functions do -/

/-- The node a list, or what is left of it, begins with. -/
def first (h : PageHdr) : List ℕ → PageNode
  | [] => .hdr h
  | i :: _ => .page i

namespace Pages

theorem nodup (hp : Pages N L v) (h : PageHdr) : (L h).Nodup :=
  (List.nodup_cons.1 (Cycle.nodup_coe_iff.1 (hp.rings.ring h).nodup)).2.of_map _

theorem length_le (hp : Pages N L v) (h : PageHdr) : (L h).length ≤ N := by
  have hsub : L h ⊆ List.range N := fun i hi => List.mem_range.2 ((hp.mem_iff i).1 ⟨h, hi⟩)
  simpa using ((hp.nodup h).subperm hsub).length_le

/-- The node after the header of a list. -/
theorem next_hdr (hp : Pages N L v) (h : PageHdr) :
    v.links.next (.hdr h) = some (first h (L h)) := by
  rw [(hp.rings.ring h).next_eq_head?]
  cases L h <;> rfl

/-- The node after a page of a list. -/
theorem next_page (hp : Pages N L v) (hi : L h = l₁ ++ i :: l₂) :
    v.links.next (.page i) = some (first h l₂) := by
  have hring := hp.rings.ring h
  rw [Vmm.rings, hi, List.map_append, List.map_cons] at hring
  rw [hring.next_middle]
  cases l₂ <;> rfl

/-- A manager with the same pages, on other lists. -/
theorem congr {L' : PageHdr → List ℕ} (hp : Pages N L v) (hr : v'.links.Rings (Vmm.rings L'))
    (hmem : ∀ j, (∃ h, j ∈ L' h) ↔ ∃ h, j ∈ L h)
    (hcounter : v'.freePageCounter = (L' .free).length) (hphy : v'.phyAddr = v.phyAddr) :
    Pages N L' v' where
  rings := hr
  mem_iff j := (hmem j).trans (hp.mem_iff j)
  counter := hcounter
  bound := hp.bound
  phy := hphy ▸ hp.phy

/-- The lock is not part of the lists. -/
theorem relock (hp : Pages N L v) (freePageLock : PageLock) :
    Pages N L { v with freePageLock } where
  rings := hp.rings
  mem_iff := hp.mem_iff
  counter := hp.counter
  bound := hp.bound
  phy := hp.phy

/-- Without a free page, nothing is mapped. -/
theorem mapping4KB_nil (hp : Pages N L v) (hlock : v.freePageLock = .init)
    (htid : tid ≠ PageLock.invalid) (hfree : L .free = []) :
    v.mapping4KB tid pid virAddr flags isIdentityMapping = some (.ENOMEM, v) := by
  have hnext := hp.next_hdr .free
  rw [hfree] at hnext
  have htake : v.getFreePage tid = some ({ v with freePageLock := .init }, none) := by
    refine locked_eq hlock htid ?_
    rw [takeFreePage, hnext]
    rfl
  rw [mapping4KB, htake, ← hlock]
  rfl

/-- The first free page is mapped. -/
theorem mapping4KB_cons (hp : Pages N L v) (hlock : v.freePageLock = .init)
    (htid : tid ≠ PageLock.invalid) (hfree : L .free = i :: l) :
    ∃ v', v.mapping4KB tid pid virAddr flags isIdentityMapping = some (.ENONE, v') ∧
      Pages N (move L .free l (.proc pid) i) v' ∧ v'.freePageLock = .init ∧ v'.phyAddr = v.phyAddr ∧
      v'.virAddr = Function.update v.virAddr i
        (if isIdentityMapping then v.phyAddr i else pageBase virAddr) ∧
      v'.mmu = (v.insertPTE (pageBase virAddr) (v.phyAddr i ||| flags)).mmu := by
  have hnext := hp.next_hdr .free
  rw [hfree, first] at hnext
  have hne : PageHdr.free ≠ .proc pid := nofun
  obtain ⟨links₁, links₂, herase, hins, hr⟩ := move_page [] hp.rings hne hfree
  -- The first page of the free list goes to the end of the list of the process.
  have hlen : (L .free).length = l.length + 1 := by rw [hfree, List.length_cons]
  have hcounter : wordSub v.freePageCounter 1 = l.length := by
    have hle := hp.length_le .free
    have hbound := hp.bound
    rw [hp.counter, hlen, wordSub_eq (by omega) (by omega)]
    rfl
  -- `getFreePage` takes and gives back the lock around it.
  have htake : v.getFreePage tid = some ({ v with
      links := links₁, freePageCounter := wordSub v.freePageCounter 1, freePageLock := .init },
      some (.page i)) := by
    let v₁ : Vmm := { v with links := links₁, freePageCounter := wordSub v.freePageCounter 1 }
    have hbody : takeFreePage { v with freePageLock := ⟨0, true, tid, 1⟩ } =
        some ({ v₁ with freePageLock := ⟨0, true, tid, 1⟩ }, some (.page i)) := by
      simp only [takeFreePage, hnext, Option.bind_eq_bind, Option.bind_some, reduceCtorEq,
        if_false, herase, v₁]
    exact locked_eq hlock htid hbody
  refine ⟨{ v with
      links := links₂
      freePageCounter := wordSub v.freePageCounter 1
      freePageLock := .init
      virAddr := Function.update v.virAddr i
        (if isIdentityMapping then v.phyAddr i else pageBase virAddr)
      mmu := (v.insertPTE (pageBase virAddr) (v.phyAddr i ||| flags)).mmu },
    ?_, hp.congr hr (mem_move_iff [] hne hfree) ?_ rfl, rfl, rfl, rfl, rfl⟩
  · simp only [mapping4KB, htake, Option.bind_eq_bind, Option.bind_some, hins]
    rfl
  · exact hcounter.trans (congrArg List.length (move_of_ne hne).symm)

/-- The loop of `unmapping4KB` over what is left of the list. -/
theorem findPage_eq {fuel : ℕ} (hp : Pages N L v) (virAddr : BitVec 32)
    (hL : L (.proc pid) = l₁ ++ l)
    (hfuel : l.length < fuel) : v.findPage pid virAddr fuel (first (.proc pid) l) =
      some (l.find? fun i => v.virAddr i = virAddr) := by
  induction l generalizing l₁ fuel with
  | nil =>
    cases fuel with
    | zero => exact absurd hfuel (Nat.not_lt_zero _)
    | succ fuel => exact if_pos rfl
  | cons i l ih =>
    cases fuel with
    | zero => exact absurd hfuel (Nat.not_lt_zero _)
    | succ fuel =>
      rw [first, findPage, if_neg nofun, List.find?_cons]
      by_cases hi : v.virAddr i = virAddr
      · simp [hi]
      · have hL' : L (.proc pid) = (l₁ ++ [i]) ++ l := by rw [hL]; simp
        simp only [hi, if_false, decide_false]
        rw [hp.next_page hL, Option.bind_some]
        exact ih hL' (Nat.lt_of_succ_lt_succ hfuel)

/-- The free list takes a page. -/
theorem putFreePage_counter (hp : Pages N L v) :
    word (v.freePageCounter + 1) = (L .free ++ [i]).length := by
  have hle := hp.length_le .free
  have hbound := hp.bound
  rw [hp.counter, word_eq (by omega), List.length_append, List.length_singleton]

/-- A page goes back to the free list. -/
theorem putFreePage (hp : Pages N L v) (hi : L (.proc pid) = l₁ ++ i :: l₂) (mmu : Mmu.State) :
    ∃ links v', v.links.erase (.page i) = some links ∧
      { v with links := links, mmu := mmu }.putFreePage (.page i) = some v' ∧
      Pages N (move L (.proc pid) (l₁ ++ l₂) .free i) v' ∧ v'.virAddr = v.virAddr ∧
      v'.phyAddr = v.phyAddr ∧ v'.mmu = mmu := by
  have hne : PageHdr.proc pid ≠ .free := nofun
  obtain ⟨links₁, links₂, herase, hins, hr⟩ := move_page l₁ hp.rings hne hi
  refine ⟨links₁, { v with
      links := links₂
      freePageCounter := word (v.freePageCounter + 1)
      mmu := mmu }, herase, ?_, hp.congr hr (mem_move_iff l₁ hne hi) ?_ rfl, rfl, rfl, rfl⟩
  · simp only [Vmm.putFreePage, hins, Option.bind_eq_bind, Option.bind_some]
  · exact hp.putFreePage_counter.trans (congrArg List.length move_self.symm)

/-- The lists are short enough for a walk. -/
theorem length_lt (hp : Pages N L v) (h : PageHdr) : (L h).length < 2 ^ 32 := by
  have hle := hp.length_le h
  have hbound := hp.bound
  omega

/-- An address that no page of the process is recorded for is not unmapped. -/
theorem unmapping4KB_none (hp : Pages N L v)
    (hno : ∀ i ∈ L (.proc pid), v.virAddr i ≠ pageBase virAddr) :
    v.unmapping4KB tid pid virAddr = some (.EFAULT, v) := by
  have hfind :=
    hp.findPage_eq (pageBase virAddr) (List.nil_append _).symm (hp.length_lt (.proc pid))
  rw [List.find?_eq_none.2 (by simpa using hno)] at hfind
  simp only [unmapping4KB, hp.next_hdr, hfind, Option.bind_eq_bind, Option.bind_some]

/-- Otherwise, the first page recorded for the address goes back to the free list. -/
theorem unmapping4KB_some (hp : Pages N L v) (hlock : v.freePageLock = .init)
    (htid : tid ≠ PageLock.invalid) (hL : L (.proc pid) = l₁ ++ i :: l₂)
    (hl₁ : ∀ j ∈ l₁, v.virAddr j ≠ pageBase virAddr) (hi : v.virAddr i = pageBase virAddr) :
    ∃ v', v.unmapping4KB tid pid virAddr = some (.ENONE, v') ∧
      Pages N (move L (.proc pid) (l₁ ++ l₂) .free i) v' ∧ v'.freePageLock = .init ∧
      v'.virAddr = v.virAddr ∧ v'.phyAddr = v.phyAddr ∧
      v'.mmu = (v.invalidPTE (pageBase virAddr)).mmu := by
  have hfind :=
    hp.findPage_eq (pageBase virAddr) (List.nil_append _).symm (hp.length_lt (.proc pid))
  have hfirst : (L (.proc pid)).find? (fun j => v.virAddr j = pageBase virAddr) = some i := by
    rw [hL, List.find?_append, List.find?_eq_none.2 (by simpa using hl₁), Option.none_or,
      List.find?_cons_of_pos (by simpa using hi)]
  rw [hfirst] at hfind
  let held : PageLock := ⟨0, true, tid, 1⟩
  obtain ⟨links, v₁, herase, hput, hp₁, hrest⟩ :=
    (hp.relock held).putFreePage hL (v.invalidPTE (pageBase virAddr)).mmu
  have hheld : { v₁ with freePageLock := held } = v₁ := by
    rw [← show v₁.freePageLock = held from freePageLock_putFreePage hput]
  have hsection : (Vmm.invalidPTE { v with links := links } (pageBase virAddr)).locked tid
      (fun v => (v.putFreePage (.page i)).map fun v => (v, ())) =
        some ({ v₁ with freePageLock := .init }, ()) :=
    locked_eq hlock htid (by rw [hheld]; exact congrArg (Option.map _) hput)
  refine ⟨{ v₁ with freePageLock := .init }, ?_, hp₁.relock .init, rfl, hrest⟩
  simp only [unmapping4KB, hp.next_hdr, hfind, Option.bind_eq_bind, Option.bind_some,
    herase, hsection]

/-- There is a node after the first one. -/
theorem exists_next_first (hp : Pages N L v) (h : PageHdr) :
    ∃ n, v.links.next (first h (L h)) = some n := by
  cases hL : L h with
  | nil => exact ⟨_, hp.next_hdr h⟩
  | cons i l =>
    have hL' : L h = [] ++ i :: l := hL
    exact ⟨_, hp.next_page hL'⟩

/-- The lists after all pages of a process have been given back. -/
def released (L : PageHdr → List ℕ) (pid : ℕ) : PageHdr → List ℕ :=
  Function.update (Function.update L (.proc pid) []) .free (L .free ++ L (.proc pid))

theorem released_nil (hL : L (.proc pid) = []) : released L pid = L := by
  rw [released, hL, List.append_nil, ← hL, Function.update_eq_self, Function.update_eq_self]

theorem released_move (hL : L (.proc pid) = i :: l) :
    released (move L (.proc pid) l .free i) pid = released L pid := by
  have hne : PageHdr.proc pid ≠ .free := nofun
  rw [released, move_self, move_of_ne hne, released, hL, List.append_assoc, List.singleton_append]
  funext h
  by_cases hf : h = .free
  · rw [hf, Function.update_self, Function.update_self]
  · rw [Function.update_of_ne hf, Function.update_of_ne hf]
    by_cases hpid : h = .proc pid
    · rw [hpid, Function.update_self, Function.update_self]
    · rw [Function.update_of_ne hpid, Function.update_of_ne hpid, move, Function.update_of_ne hf,
        Function.update_of_ne hpid]

/-- The loop of `releaseProcAllPages` gives the pages back one after the other. -/
theorem releasePages {fuel : ℕ} {n : PageNode} (hp : Pages N L v) (hL : L (.proc pid) = l)
    (hfuel : l.length < fuel) (hn : v.links.next (first (.proc pid) l) = some n) :
    ∃ v', v.releasePages pid fuel (first (.proc pid) l) n = some v' ∧
      Pages N (released L pid) v' ∧ Run Mmu.step (fun _ _ => True) v.mmu v'.mmu := by
  induction l generalizing L v fuel n with
  | nil =>
    cases fuel with
    | zero => exact absurd hfuel (Nat.not_lt_zero _)
    | succ fuel => exact ⟨v, if_pos rfl, (released_nil hL).symm ▸ hp, .refl⟩
  | cons i l ih =>
    cases fuel with
    | zero => exact absurd hfuel (Nat.not_lt_zero _)
    | succ fuel =>
      have hne : PageHdr.proc pid ≠ .free := by simp
      have hL₀ : L (.proc pid) = [] ++ i :: l := hL
      -- The next node was read before the page was taken off the list.
      obtain rfl : first (.proc pid) l = n := Option.some.inj ((hp.next_page hL₀).symm.trans hn)
      obtain ⟨links, v₁, herase, hput, hp₁, -, -, hmmu₁⟩ :=
        hp.putFreePage hL₀ (v.invalidPTE (v.virAddr i)).mmu
      have hL₁ : move L (.proc pid) ([] ++ l) .free i (.proc pid) = l := move_of_ne hne
      obtain ⟨n₁, hn₁⟩ := hp₁.exists_next_first (.proc pid)
      rw [hL₁] at hn₁
      obtain ⟨v', hv', hp', hrun⟩ := ih hp₁ hL₁ (Nat.lt_of_succ_lt_succ hfuel) hn₁
      have hstep : Run Mmu.step (fun _ _ => True) v.mmu v₁.mmu :=
        .tail (i := .invalidPTE (v.virAddr i)) .refl trivial (congrArg some hmmu₁.symm)
      refine ⟨v', ?_, released_move hL ▸ hp', hstep.trans hrun⟩
      rw [first, Vmm.releasePages, if_neg (by simp)]
      simp only [Vmm.invalidPTE] at hput ⊢
      simp only [herase, hput, hn₁, Option.bind_eq_bind, Option.bind_some, hv']

/-- All pages of the process go back to the free list. -/
theorem releaseProcAllPages (hp : Pages N L v) (hlock : v.freePageLock = .init)
    (htid : tid ≠ PageLock.invalid) (pid : ℕ) :
    ∃ v', v.releaseProcAllPages tid pid = some v' ∧ Pages N (released L pid) v' ∧
      v'.freePageLock = .init ∧ Run Mmu.step (fun _ _ => True) v.mmu v'.mmu := by
  let held : PageLock := ⟨0, true, tid, 1⟩
  have hp₀ := hp.relock held
  obtain ⟨n, hn⟩ := hp.exists_next_first (.proc pid)
  obtain ⟨v₁, hv₁, hp₁, hrun⟩ := hp₀.releasePages rfl (hp.length_lt (.proc pid)) hn
  have hheld : { v₁ with freePageLock := held } = v₁ := by
    rw [← show v₁.freePageLock = held from freePageLock_releasePages hv₁]
  have hsection :
      v.locked tid (releaseAllPages pid) = some ({ v₁ with freePageLock := .init }, ()) := by
    refine locked_eq hlock htid ?_
    rw [hheld]
    simp only [releaseAllPages, hp.next_hdr, hn, Option.bind_eq_bind, Option.bind_some]
    exact congrArg (fun r => r.bind fun v => some (v, ())) hv₁
  exact ⟨{ v₁ with freePageLock := .init },
    by rw [Vmm.releaseProcAllPages, hsection]; rfl, hp₁.relock .init, rfl, hrun⟩

end Pages

/-! ## Start-up -/

/-- All pages are free. -/
def fresh (n : ℕ) : PageHdr → List ℕ := Function.update (fun _ => []) .free (List.range n)

/-- The number of pages. -/
def pageCount : ℕ := 62976

/-- The address of the first page. -/
def pageStart : ℕ := 10 * 2 ^ 20

variable {initialised : Bool}

theorem rings_firstInit (sr : Mmu.SRs) :
    (zero sr initialised).firstInit.links.Rings (rings (fresh 0)) where
  ring h := by
    have hring : rings (fresh 0) h = ↑[PageNode.hdr h] := by
      cases h <;> rfl
    rw [hring]
    refine ⟨Cycle.nodup_coe_iff.2 (List.nodup_singleton _), (Cycle.chain_singleton _ _).2 ?_⟩
    cases h <;> simp [Linked, firstInit, zero, initRing]
  disjoint := by
    intro h h' x hx hx'
    cases h <;> cases h' <;> simp_all [rings, fresh]
  null := by
    intro x hx
    cases x with
    | hdr h => exact absurd (by simp [rings]) (hx h)
    | page i => simp [firstInit, zero, initRing]

/-- The loop over the `n` pages of a block, which there may be none of. -/
theorem initPages_eq {start stop : ℕ} (fuel n : ℕ) (hr : v.links.Rings (rings (fresh i)))
    (hstop : stop = start + n * pageSize ∨ n = 0 ∧ stop ≤ start)
    (hlt : start + n * pageSize < 2 ^ 32) (hfuel : n < fuel) :
    ∃ v', v.initPages stop fuel start i = some (v', i + n) ∧
      v'.links.Rings (rings (fresh (i + n))) ∧ (∀ j < i, v'.phyAddr j = v.phyAddr j) ∧
      (∀ j < n, v'.phyAddr (i + j) = BitVec.ofNat 32 (start + j * pageSize)) ∧
      v'.freePageCounter = v.freePageCounter ∧ v'.freePageLock = v.freePageLock ∧
        v'.mmu = v.mmu := by
  induction n generalizing v fuel i start with
  | zero =>
    cases fuel with
    | zero => exact absurd hfuel (Nat.not_lt_zero _)
    | succ fuel =>
      have hend : ¬start < stop := by
        rw [Nat.zero_mul] at hstop
        omega
      exact ⟨v, if_neg hend, hr, fun _ _ => rfl, nofun, rfl, rfl, rfl⟩
  | succ n ih =>
    cases fuel with
    | zero => exact absurd hfuel (Nat.not_lt_zero _)
    | succ fuel =>
      have hoff : ∀ h, i ∉ fresh i h := by
        intro h hmem
        cases h with
        | free => simp [fresh] at hmem
        | proc pid => simp [fresh] at hmem
      -- The page is put at the end of the free list, and its address is stored.
      obtain ⟨links, hins, hr'⟩ := insert_page .free hr hoff
      have hfresh : Function.update (fresh i) .free (fresh i .free ++ [i]) = fresh (i + 1) := by
        rw [fresh, Function.update_idem, Function.update_self, ← List.range_succ, fresh]
      rw [hfresh] at hr'
      have hsucc (m : ℕ) : start + (m + 1) * pageSize = start + pageSize + m * pageSize := by
        rw [Nat.add_mul, Nat.one_mul]
        omega
      rw [hsucc] at hstop hlt
      have hword : word (start + pageSize) = start + pageSize := word_eq (by omega)
      have hstart : start < stop := by
        have : 0 < pageSize := by decide
        omega
      obtain ⟨v', hv', hr₁, hold, hnew, hrest⟩ := ih fuel (v := { v with
          links := links
          phyAddr := Function.update v.phyAddr i (BitVec.ofNat 32 start)
          virAddr := Function.update v.virAddr i 0 }) hr' (by omega) hlt
        (Nat.lt_of_succ_lt_succ hfuel)
      rw [show i + 1 + n = i + (n + 1) by omega] at hv' hr₁
      refine ⟨v', ?_, hr₁, fun j hj => ?_, fun j hj => ?_, hrest⟩
      · rw [initPages, if_pos hstart, hins, hword]
        exact hv'
      · exact (hold j (by omega)).trans (Function.update_of_ne hj.ne ..)
      · cases j with
        | zero =>
          rw [Nat.zero_mul]
          exact (hold i (by omega)).trans (Function.update_self ..)
        | succ j =>
          rw [hsucc, ← hnew j (by omega), Nat.add_assoc, Nat.add_comm 1]

/-- The manager at start-up: all pages are free, and the table is empty. -/
theorem exists_boot (sr : Mmu.SRs) (tabStart : BitVec 32) (initialised : Bool) :
    ∃ v, boot sr tabStart initialised = some v ∧ Pages pageCount (fresh pageCount) v ∧
      (∀ j < pageCount, v.phyAddr j = BitVec.ofNat 32 (pageStart + j * pageSize)) ∧
      v.freePageLock = (if initialised then .init else .zero) ∧
        v.mmu = ⟨sr, .init tabStart 0x100000⟩ := by
  have hcounter : (zero sr initialised).firstInit.freePageCounter = pageCount := by
    change vmmSpaces.foldl (fun n b => word (n + wordSub b.stop b.start)) 0 >>> 12 = pageCount
    decide
  obtain ⟨v, hv, hr, -, hphy, hcount, hlock, hmmu⟩ := initPages_eq (2 ^ 32) pageCount
    (v := { (zero sr initialised).firstInit with mmu := ⟨sr, .init tabStart 0x100000⟩ })
      (rings_firstInit sr)
    (.inl rfl) (show pageStart + pageCount * pageSize < 2 ^ 32 by decide) (by decide)
  simp only [Nat.zero_add] at hv hr hphy
  refine ⟨v, ?_, ⟨hr, fun i => ?_, ?_, by decide, fun i hi j hj hij => ?_⟩, hphy, hlock, hmmu⟩
  · -- The parameters of the boot code for this memory map.
    have hsize : Powerpc.optimalSize (word (pageCount * pageSize)) = 0x100000 := by decide
    have hstart : MemBlock.start ⟨0 + 4 * 2 ^ 20 + 6 * 2 ^ 20,
        256 * 2 ^ 20 - (4 * 2 ^ 20 + 6 * 2 ^ 20)⟩ = pageStart := by decide
    have hstop : MemBlock.stop ⟨0 + 4 * 2 ^ 20 + 6 * 2 ^ 20,
        256 * 2 ^ 20 - (4 * 2 ^ 20 + 6 * 2 ^ 20)⟩ = pageStart + pageCount * pageSize := by decide
    have hpos : 0 < pageCount := by decide
    simp only [hcounter] at hv
    simp only [boot, hcounter, hsize, secondInit, vmmSpaces, initBlocks, if_pos hpos, hstart, hstop,
      hv, Option.bind_eq_bind, Option.bind_some]
  · constructor
    · rintro ⟨h, hi⟩
      cases h with
      | free => simpa [fresh] using hi
      | proc pid => simp [fresh] at hi
    · exact fun hi => ⟨.free, by simpa [fresh] using hi⟩
  · rw [hcount]
    simpa [fresh] using hcounter
  · rw [hphy i hi, hphy j hj] at hij
    have hnat := congrArg BitVec.toNat hij
    simp only [BitVec.toNat_ofNat] at hnat
    unfold pageStart pageSize pageCount at *
    omega

/-! ## Conservation -/

/-- The list with the header `h` has the pages `l`. -/
def IsList (v : Vmm) (h : PageHdr) (l : List ℕ) : Prop :=
  v.links.IsRing ↑(.hdr h :: l.map .page : List PageNode)

/-- Every page is on exactly one list, the counter is the length of the free list, and no two
    descriptors have the same page. -/
def Conserved (v : Vmm) : Prop :=
  ∃ L : PageHdr → List ℕ, (∀ h, v.IsList h (L h)) ∧ (∀ i < pageCount, ∃! h, i ∈ L h) ∧
    v.freePageCounter = (L .free).length ∧
    ∀ i < pageCount, ∀ j < pageCount, v.phyAddr i = v.phyAddr j → i = j

theorem Pages.conserved (hp : Pages pageCount L v) : Conserved v := by
  refine ⟨L, hp.rings.ring, fun i hi => ?_, hp.counter, hp.phy⟩
  obtain ⟨h, hmem⟩ := (hp.mem_iff i).2 hi
  exact ⟨h, hmem, fun h' hmem' => hp.rings.disjoint (mem_rings.2 hmem') (mem_rings.2 hmem)⟩

/-- The page is on the list. -/
def OnList (v : Vmm) (h : PageHdr) (i : ℕ) : Prop := v.links.Reaches (.hdr h) (.page i)

theorem Pages.onList_iff {h : PageHdr} (hp : Pages N L v) : v.OnList h i ↔ i ∈ L h :=
  ((hp.rings.ring h).reaches_iff (by simp [Vmm.rings])).trans mem_rings

/-- No page of the process is recorded for the address. -/
def NotRecorded (v : Vmm) (pid : ℕ) (va : BitVec 32) : Prop :=
  ∀ i, v.OnList (.proc pid) i → v.virAddr i ≠ va

/-- A call returns and conserves the pages, and if it fails it changes nothing. -/
def Correct (v : Vmm) (op : ℕ × VmmOp) : Prop :=
  ∃ e v', v.call op.1 op.2 = some (e, v') ∧ Conserved v' ∧ (e ≠ .ENONE → v' = v)

/-- A call that does not take the lock: an unmapping that finds no page. -/
def Misses (v : Vmm) : ℕ × VmmOp → Prop
  | (_, .unmapping4KB pid va) => v.NotRecorded pid (pageBase va)
  | _ => False

/-- What a call returns if the lock is initialised, and that a failing one changes nothing. The
    table is changed by its own functions only. -/
theorem Pages.call (hp : Pages N L v) (hlock : v.freePageLock = .init)
    (htid : tid ≠ PageLock.invalid)
    (op : VmmOp) :
    ∃ e v', v.call tid op = some (e, v') ∧ (∃ L', Pages N L' v') ∧ v'.freePageLock = .init ∧
      (e ≠ .ENONE → v' = v) ∧ Run Mmu.step (fun _ _ => True) v.mmu v'.mmu := by
  cases op with
  | mapping4KB pid virAddr flags isIdentityMapping =>
    cases hfree : L .free with
    | nil => exact ⟨_, v, hp.mapping4KB_nil hlock htid hfree, ⟨L, hp⟩, hlock, fun _ => rfl, .refl⟩
    | cons i l =>
      obtain ⟨v', hmap, hp', hlock', -, -, hmmu⟩ := hp.mapping4KB_cons hlock htid hfree
      exact ⟨_, v', hmap, ⟨_, hp'⟩, hlock', fun h => absurd rfl h,
        .tail (i := .insertPTE _ _) .refl trivial (congrArg some hmmu.symm)⟩
  | unmapping4KB pid virAddr =>
    cases hfind : (L (.proc pid)).find? (fun i => v.virAddr i = pageBase virAddr) with
    | none =>
      have hno := List.find?_eq_none.1 hfind
      exact ⟨_, v, hp.unmapping4KB_none (by simpa using hno), ⟨L, hp⟩, hlock, fun _ => rfl, .refl⟩
    | some i =>
      obtain ⟨hi, l₁, l₂, hL, hl₁⟩ := List.find?_eq_some_iff_append.1 hfind
      obtain ⟨v', hunmap, hp', hlock', -, -, hmmu⟩ :=
        hp.unmapping4KB_some hlock htid hL (by simpa using hl₁) (by simpa using hi)
      exact ⟨_, v', hunmap, ⟨_, hp'⟩, hlock', fun h => absurd rfl h,
        .tail (i := .invalidPTE _) .refl trivial (congrArg some hmmu.symm)⟩
  | releaseProcAllPages pid =>
    obtain ⟨v', hv', hp', hlock', hrun⟩ := hp.releaseProcAllPages hlock htid pid
    exact ⟨_, v', congrArg (Option.map _) hv', ⟨_, hp'⟩, hlock', fun h => absurd rfl h, hrun⟩

theorem getFreePage_eq_none (hlock : v.freePageLock = .zero) (tid : ℕ) : v.getFreePage tid = none :=
  locked_eq_none hlock tid unlocking_takeFreePage

/-- If the lock is not initialised, the calls that return are those that do not take it. -/
theorem Pages.call_zero (hp : Pages N L v) (hlock : v.freePageLock = .zero) (op : ℕ × VmmOp) :
    (v.Misses op ∧ v.call op.1 op.2 = some (.EFAULT, v)) ∨ ¬v.Misses op ∧
    v.call op.1 op.2 = none := by
  obtain ⟨tid, op⟩ := op
  -- A lock of zeros lets no call back: only one that takes no lock returns.
  cases op with
  | mapping4KB pid virAddr flags isIdentityMapping =>
    refine .inr ⟨id, ?_⟩
    rw [Vmm.call, mapping4KB, getFreePage_eq_none hlock]
    rfl
  | unmapping4KB pid virAddr =>
    by_cases hno : v.NotRecorded pid (pageBase virAddr)
    · exact .inl ⟨hno, hp.unmapping4KB_none fun i hi => hno i (hp.onList_iff.2 hi)⟩
    · refine .inr ⟨hno, ?_⟩
      have hsome : ((L (.proc pid)).find? fun i => v.virAddr i = pageBase virAddr).isSome := by
        obtain ⟨i, hon, hi⟩ : ∃ i, v.OnList (.proc pid) i ∧ v.virAddr i = pageBase virAddr := by
          simpa [NotRecorded] using hno
        exact List.find?_isSome.2 ⟨i, hp.onList_iff.1 hon, by simpa using hi⟩
      obtain ⟨i, hi⟩ := Option.isSome_iff_exists.1 hsome
      have hfind :=
        hp.findPage_eq (pageBase virAddr) (List.nil_append _).symm (hp.length_lt (.proc pid))
      rw [hi] at hfind
      rw [Vmm.call, unmapping4KB]
      simp only [hp.next_hdr, hfind, Option.bind_eq_bind, Option.bind_some]
      cases v.links.erase (.page i) with
      | none => rfl
      | some links =>
        have hnone :=
          locked_eq_none (v := Vmm.invalidPTE { v with links } (pageBase virAddr)) hlock tid
          (unlocking_putFreePage (.page i))
        rw [Option.bind_some, hnone]
        rfl
  | releaseProcAllPages pid =>
    refine .inr ⟨id, ?_⟩
    rw [Vmm.call, Vmm.releaseProcAllPages, locked_eq_none hlock tid (unlocking_releaseAllPages pid)]
    rfl

/-- The manager of every state reached: its pages, its lock, and the changes of the table. -/
structure Started (sr : Mmu.SRs) (tabStart : BitVec 32) (initialised : Bool) (v : Vmm) : Prop where
  pages : ∃ L, Pages pageCount L v
  freePageLock : v.freePageLock = if initialised then .init else .zero
  mmu : Run Mmu.step (fun _ _ => True) ⟨sr, .init tabStart 0x100000⟩ v.mmu

theorem started_boot (sr : Mmu.SRs) (tabStart : BitVec 32) (initialised : Bool) :
    ∃ v, boot sr tabStart initialised = some v ∧ Started sr tabStart initialised v := by
  obtain ⟨v, hboot, hp, -, hlock, hmmu⟩ := exists_boot sr tabStart initialised
  exact ⟨v, hboot, ⟨_, hp⟩, hlock, hmmu ▸ .refl⟩

variable {sr : Mmu.SRs} {tabStart : BitVec 32} {op : ℕ × VmmOp}

theorem Started.step (h : Started sr tabStart initialised v) (hadm : v.Admits op)
    (hstep : v.step op = some v') : Started sr tabStart initialised v' := by
  obtain ⟨L, hp⟩ := h.pages
  cases initialised with
  | true =>
    have htid : op.1 ≠ PageLock.invalid := (hadm.trans (by decide)).ne
    obtain ⟨e, v₁, hcall, hp₁, hlock₁, -, hmmu₁⟩ := hp.call h.freePageLock htid op.2
    rw [Vmm.step, hcall] at hstep
    exact Option.some.inj hstep ▸ ⟨hp₁, hlock₁, h.mmu.trans hmmu₁⟩
  | false =>
    rw [Vmm.step] at hstep
    rcases hp.call_zero h.freePageLock op with ⟨-, hcall⟩ | ⟨-, hcall⟩
    · rw [hcall] at hstep
      exact Option.some.inj hstep ▸ h
    · rw [hcall] at hstep
      exact absurd hstep.symm (Option.some_ne_none v')

/-- The pages, the lock and the table of every state reached from start-up. -/
theorem started_of_run {v₀ : Vmm} (hboot : boot sr tabStart initialised = some v₀)
    (hrun : Run step Admits v₀ v) : Started sr tabStart initialised v := by
  obtain ⟨v₁, hboot₁, h₁⟩ := started_boot sr tabStart initialised
  obtain rfl : v₁ = v₀ := Option.some.inj (hboot₁.symm.trans hboot)
  exact hrun.invariant (I := Started sr tabStart initialised)
    (fun h hadm hstep => h.step hadm hstep) h₁

/-- A call is right if the lock is initialised, or is not taken. -/
theorem Started.correct_iff (h : Started sr tabStart initialised v) (hadm : v.Admits op) :
    v.Correct op ↔ initialised = true ∨ v.Misses op := by
  obtain ⟨L, hp⟩ := h.pages
  cases initialised with
  | true =>
    have htid : op.1 ≠ PageLock.invalid := (hadm.trans (by decide)).ne
    obtain ⟨e, v₁, hcall, ⟨L₁, hp₁⟩, -, hfail, -⟩ := hp.call h.freePageLock htid op.2
    exact iff_of_true ⟨e, v₁, hcall, hp₁.conserved, hfail⟩ (.inl rfl)
  | false =>
    rcases hp.call_zero h.freePageLock op with ⟨hmiss, hcall⟩ | ⟨hmiss, hcall⟩
    · exact iff_of_true ⟨_, v, hcall, hp.conserved, fun _ => rfl⟩ (.inr hmiss)
    · refine iff_of_false ?_ fun hor => hor.elim Bool.false_ne_true hmiss
      rintro ⟨e, v', hcall', -⟩
      exact Option.some_ne_none _ (hcall'.symm.trans hcall)

/-- The first free page is at the address of the first page. -/
theorem fresh_free : ∃ l, fresh pageCount .free = 0 :: l := by
  have hcount : pageCount = 62975 + 1 := by decide
  exact ⟨(List.range 62975).map Nat.succ, by
    rw [fresh, Function.update_self, hcount, List.range_succ_eq_map]⟩

end Vmm

end DemoOs
