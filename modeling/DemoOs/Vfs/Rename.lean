import DemoOs.Lib.Search
import DemoOs.Mm.HeapBytes
import DemoOs.Vfs.Names
import DemoOs.Vfs.Pool

/-!
# Renaming

`renameChild` should move one node, and change nothing else (`Moved`). In the code, where there are
no directories, it never does: the search for the node does not return, or finds nothing for the
empty name. If there are directories, it does so for a new name in the same directory if it is as
long as the old one (`renames_iff`):

* the length of the new name is used in the search for the old one;
* `detach`, by which a node leaves its directory, makes it invalid, and `addChild` does not set its
  parent;
* `addChild` counts the child in the wrong half of the word, so that the counter of the directory is
  right only by chance.

If it returns a null pointer, the tree and the heap are unchanged (`unchanged_of_none`).
-/

namespace DemoOs

/-- The file system, and the heap the names are in. -/
structure VfsHeap where
  vfs : Vfs
  heap : Heap
  /-- The address in `_name`. -/
  nameAt : Slot → ℕ

namespace VfsHeap

/-- `VFSDir::renameChild`, with the copy of the new name. -/
def renameChild (header : ℕ) (v : VfsHeap) (this : Slot) (pid : UInt16) (oldName : CStr)
    (newDir : Slot)
    (newName : CStr) : Option (Option Slot × VfsHeap) := do
  let (namecpy, heap) ← Heap.allocate header v.heap (word (CStr.strlen newName.1 + 1))
  if namecpy = 0 then some (none, { v with heap })
  else
    let heap := { heap with mem := heap.mem.memcpy namecpy (newName.1 ++ [0]) }
    match ← v.vfs.renameChild this pid oldName newDir newName true with
    | (none, vfs) => some (none, { v with vfs, heap := Heap.free header heap namecpy })
    | (some target, vfs) =>
      -- The old name is freed by `detach`, or in its place.
      let heap :=
        if (v.vfs.nodes target).needReleased then Heap.free header heap (v.nameAt target) else heap
      some (some target, ⟨vfs, heap, Function.update v.nameAt target namecpy⟩)

end VfsHeap

namespace Vfs

variable {s s' : Vfs} {v v' : VfsHeap} {header : ℕ} {blocks : List (ℕ × ℕ)} {this newDir i j : Slot}
  {oldName newName : CStr} {pid : UInt16} {r : Option Slot}

/-- The reference counter of a directory is that of its children, and one. -/
def Counted (s : Vfs) (d : Slot) : Prop := (s.nodes d).refCount.toNat = 1 + (s.children d).length

/-- The node `i` has been moved from `this` to `newDir`, under the new name, and nothing else has
    changed. -/
structure Moved (s s' : Vfs) (this newDir i : Slot) (oldName newName : CStr) : Prop where
  found : s'.findAllInDir newDir newName.1 (CStr.strlen newName.1) = some (some i)
  not_found : s'.findAllInDir this oldName.1 (CStr.strlen oldName.1) ≠ some (some i)
  node_eq : s'.nodes i =
    { s.nodes i with name := some newName, nameLen := newName.1.length, parent := some newDir }
  lists_eq : ∀ h : NodeHdr, h.dir = some i → s'.lists h = s.lists h
  mem_dirs : i ∈ s'.lists (.dirs newDir) ↔ (s.nodes i).nodeType = .Directory
  counted : Counted s' this ∧ Counted s' newDir
  dir_eq : ∀ d, d ≠ i → ∃ r, s'.nodes d = { s.nodes d with refCount := r }
  other_eq : ∀ j, j ≠ i → j ≠ this → j ≠ newDir → s'.nodes j = s.nodes j
  erase_eq : ∀ h, (s'.lists h).erase i = (s.lists h).erase i
  count : s'.allocatedCount = s.allocatedCount
  table : s'.fsDescTable = s.fsDescTable

/-- There is no memory for the copy of the name. -/
def NoMemory (header : ℕ) (v : VfsHeap) (newName : CStr) : Prop :=
  (Heap.allocate header v.heap (word (CStr.strlen newName.1 + 1))).map Prod.fst = some 0

/-- The tree is unchanged, and the heap has the segments it had. -/
structure Unchanged (header : ℕ) (blocks : List (ℕ × ℕ)) (v v' : VfsHeap) : Prop where
  vfs : v'.vfs = v.vfs
  nameAt : v'.nameAt = v.nameAt
  heap : Heap.SameSegs header ⟨v.heap, blocks, []⟩ ⟨v'.heap, blocks, []⟩

/-- The call returns the node, which has been moved, or a null pointer if there is no memory; and
    nothing has changed in this case. -/
def Renames (header : ℕ) (blocks : List (ℕ × ℕ)) (v : VfsHeap) (this : Slot) (pid : UInt16)
    (oldName : CStr) (newDir : Slot) (newName : CStr) (i : Slot) : Prop :=
  ∃ r v', v.renameChild header this pid oldName newDir newName = some (r, v') ∧
    (r = none → Unchanged header blocks v v') ∧
    (¬NoMemory header v newName → r = some i ∧ Moved v.vfs v'.vfs this newDir i oldName newName)

/-! ## Null pointers -/

/-- A null pointer is returned with nothing changed, and else the node that is found. -/
theorem renameChild_cases {copied : Bool}
    (hcall : s.renameChild this pid oldName newDir newName copied = some (r, s')) :
    (r = none ∧ s' = s) ∨
      ∃ target, r = some target ∧
        s.findAllInDir this oldName.1 (CStr.strlen newName.1) = some (some target) ∧
        (s.nodes target).canRemove pid := by
  have hsame (h : s.renameChild this pid oldName newDir newName copied = some (none, s)) :
      r = none ∧ s' = s := by
    obtain ⟨rfl, rfl⟩ := Prod.mk.inj (Option.some.inj (h.symm.trans hcall))
    exact ⟨rfl, rfl⟩
  cases copied with
  | false => exact .inl (hsame renameChild_of_not_copied)
  | true =>
    cases hfind : s.findAllInDir this oldName.1 (CStr.strlen newName.1) with
    | none => exact nomatch (renameChild_of_none hfind).symm.trans hcall
    | some found =>
      cases found with
      | none => exact .inl (hsame (renameChild_of_not_found hfind))
      | some target =>
        by_cases hcan : (s.nodes target).canRemove pid
        · refine .inr ⟨target, ?_, rfl, hcan⟩
          -- Within a directory the node is written in place.
          by_cases hdir : newDir = this
          · subst hdir
            rw [renameChild_same hfind hcan] at hcall
            exact (Prod.mk.inj (Option.some.inj hcall)).1.symm
          · rw [Vfs.renameChild, if_pos rfl, hfind] at hcall
            simp only [Option.bind_eq_bind, Option.bind_some, hcan, if_true, ne_eq, hdir,
              not_false_eq_true] at hcall
            obtain ⟨_, -, hcall⟩ := Option.bind_eq_some_iff.1 hcall
            exact (Prod.mk.inj (Option.some.inj hcall)).1.symm
        · exact .inl (hsame (renameChild_of_not_canRemove hfind hcan))

theorem unchanged_of_noMemory (this : Slot) (pid : UInt16) (oldName : CStr) (newDir : Slot)
    (hwf : Heap.WellFormed header ⟨v.heap, blocks, []⟩)
    (hno : NoMemory header v newName) :
    v.renameChild header this pid oldName newDir newName = some (none, v) ∧
      Unchanged header blocks v v := by
  obtain ⟨T, R, hinv⟩ := hwf
  refine ⟨?_, rfl, rfl, hinv.sameSegs hinv rfl rfl⟩
  obtain ⟨⟨p, h'⟩, halloc, rfl⟩ := Option.map_eq_some_iff.1 hno
  obtain ⟨p, h'', halloc', hcase⟩ := Heap.allocate_spec hinv (word (CStr.strlen newName.1 + 1))
  obtain ⟨rfl, rfl⟩ := Prod.mk.inj (Option.some.inj (halloc.symm.trans halloc'))
  rcases hcase with ⟨-, rfl, -⟩ | ⟨a, -, -, -, -, -, -, hp, -⟩
  · rw [VfsHeap.renameChild, halloc]
    rfl
  · exact absurd hp (by simp)

/-- When a null pointer is returned, nothing has changed. -/
theorem unchanged_of_none (hwf : Heap.WellFormed header ⟨v.heap, blocks, []⟩)
    (hlen : newName.1.length + 4 < 2 ^ 32)
    (hcall : v.renameChild header this pid oldName newDir newName = some (none, v')) :
    Unchanged header blocks v v' := by
  by_cases hno : NoMemory header v newName
  · obtain ⟨hnone, hsame⟩ := unchanged_of_noMemory this pid oldName newDir hwf hno
    obtain ⟨-, rfl⟩ := Prod.mk.inj (Option.some.inj (hnone.symm.trans hcall))
    exact hsame
  · rw [VfsHeap.renameChild] at hcall
    obtain ⟨⟨p, h₁⟩, halloc, hcall⟩ := Option.bind_eq_some_iff.1 hcall
    have hp : p ≠ 0 := by
      rintro rfl
      exact hno (by rw [NoMemory, halloc]; rfl)
    simp only [if_neg hp] at hcall
    obtain ⟨⟨target, s'⟩, hrename, hcall⟩ := Option.bind_eq_some_iff.1 hcall
    cases target with
    | some target => cases hcall
    | none =>
      obtain ⟨-, rfl⟩ := (renameChild_cases hrename).resolve_right fun ⟨_, h, _⟩ => nomatch h
      obtain ⟨-, rfl⟩ := Prod.mk.inj (Option.some.inj hcall)
      have hword : word (CStr.strlen newName.1 + 1) = newName.1.length + 1 :=
        word_eq (by rw [CStr.strlen]; omega)
      rw [hword] at halloc
      exact ⟨rfl, rfl, Heap.sameSegs_free hwf halloc hp (by omega) (by simp)⟩

/-! ## The move -/

/-- The node that is found is the one to be moved only if the names are of one length, and in
    another directory its parent remains null. -/
theorem Tree.of_moved (hs : Tree s) (hi : i ∈ s.children this) (hname : (s.nodes i).HasName oldName)
    (hcall : s.renameChild this pid oldName newDir newName true = some (some i, s'))
    (hm : Moved s s' this newDir i oldName newName) :
    newDir = this ∧ newName.1.length = oldName.1.length ∧
      s.childNamed this oldName.1 (CStr.strlen oldName.1) = some i ∧ Counted s this := by
  obtain ⟨target, htarget, hfind', hcan⟩ := (renameChild_cases hcall).resolve_left (by simp)
  obtain rfl : i = target := Option.some.inj htarget
  have hfound := (findAllInDir_eq_some_iff.1 hfind').2
  obtain ⟨-, -, hnamed⟩ := findIn_eq_some hfound
  have hlen : oldName.1.length = newName.1.length := ((hname.isNamed_iff oldName.2).1 hnamed).1
  obtain ⟨h, hh, hi⟩ := mem_children.1 hi
  -- A node moved to another directory is left without a parent.
  by_cases hdir : newDir = this
  · subst hdir
    refine ⟨rfl, hlen.symm, by rw [CStr.strlen, hlen]; exact hfound, ?_⟩
    obtain ⟨-, rfl⟩ :=
      Prod.mk.inj (Option.some.inj ((renameChild_same hfind' hcan).symm.trans hcall))
    have hcounted := hm.counted.1
    by_cases hself : newDir = i
    · rw [Counted, hself, setNode_self] at hcounted
      rw [Counted, hself]
      exact hcounted
    · rw [Counted, setNode_of_ne hself] at hcounted
      exact hcounted
  · obtain ⟨s₁, hd, hrename⟩ :=
      exists_renameChild hfind' hcan (hs.parent hh hi) (hs.ne_of_mem hh hi) hdir
    obtain ⟨-, rfl⟩ := Prod.mk.inj (Option.some.inj (hrename.symm.trans hcall))
    have hparent := congrArg VfsNode.parent hm.node_eq
    rw [setNode_self, hd.parent_addChild] at hparent
    cases hparent

/-- In the same directory the name is set in its place. -/
theorem Tree.moved (hs : Tree s) (hname : (s.nodes i).HasName oldName)
    (hfind : s.childNamed this oldName.1 (CStr.strlen oldName.1) = some i)
    (hfresh : ¬s.Taken this newName) (hlen : newName.1.length = oldName.1.length)
    (hcount : Counted s this) :
    Moved s (s.setNode i fun n => { n with name := some newName, nameLen := CStr.strlen newName.1 })
      this this i oldName newName := by
  obtain ⟨hpos, hmem, -⟩ := findIn_eq_some hfind
  have hlists : s.hasLists this := by
    obtain ⟨h, hh, hi⟩ := mem_children.1 (mem_children_of_childNamed hfind)
    exact hs.hasLists (hs.dir_type hh hi)
  have hchild := mem_children_of_childNamed hfind
  obtain ⟨h, hh, hi⟩ := mem_children.1 hchild
  have hself := hs.ne_of_mem hh hi
  have hne : oldName ≠ newName := fun heq => hfresh ⟨i, hchild, heq ▸ hname.1⟩
  -- The node stays where it is: only its name is written.
  let s' := s.setNode i fun n => { n with name := some newName, nameLen := CStr.strlen newName.1 }
  have hnew : (s'.nodes i).HasName newName := by
    rw [setNode_self]
    exact ⟨rfl, rfl⟩
  have hcount' : Counted s' this := by
    rw [Counted, setNode_of_ne hself]
    exact hcount
  refine
    { found := ?_
      not_found := fun hold => ?_
      node_eq := ?_
      lists_eq := fun _ _ => rfl
      mem_dirs := ?_
      counted := ⟨hcount', hcount'⟩
      dir_eq := fun d hd => ⟨_, setNode_of_ne hd⟩
      other_eq := fun j hj _ _ => setNode_of_ne hj
      erase_eq := fun _ => rfl
      count := rfl
      table := rfl }
  · -- No other child has the new name.
    refine findAllInDir_eq_some_iff.2 ⟨?_, ?_⟩
    · unfold Vfs.hasLists
      rw [setNode_of_ne hself]
      exact hlists
    rw [childNamed, findIn, if_neg (by rw [CStr.strlen, hlen]; exact hpos)]
    refine Search.find?_eq_some_of_unique hmem (hnew.isNamed_strlen_iff.2 rfl) fun x hx hnamed => ?_
    by_contra hxi
    rw [setNode_of_ne hxi] at hnamed
    have hx : x ∈ s.children this := List.mem_append.2 (List.mem_append.1 hx).symm
    obtain ⟨k, hk, hxk⟩ := mem_children.1 hx
    obtain ⟨nm, hnm⟩ := hs.named k (by rintro rfl; cases hk) x hxk
    exact hfresh ⟨x, hx, hnm.isNamed_strlen_iff.1 hnamed ▸ hnm.1⟩
  · have hold := (findAllInDir_eq_some_iff.1 hold).2
    exact hne (hnew.isNamed_strlen_iff.1 (findIn_eq_some hold).2.2).symm
  · rw [setNode_self, ← hs.parent hh hi]
    rfl
  · constructor
    · exact fun hdirs => by
        by_contra htype
        have heq := hs.hdr_eq (h := .dirs this) rfl hdirs
        rw [NodeHdr.ofType, if_neg htype] at heq
        cases heq
    · intro htype
      have heq := hs.hdr_eq hh hi
      rw [NodeHdr.ofType, if_pos htype] at heq
      exact heq ▸ hi

/-- If a node is returned, the tree is that of the call without the heap. -/
theorem renameChild_of_some
    (hcall : v.renameChild header this pid oldName newDir newName = some (some i, v')) :
    v.vfs.renameChild this pid oldName newDir newName true = some (some i, v'.vfs) := by
  rw [VfsHeap.renameChild] at hcall
  obtain ⟨⟨p, h₁⟩, -, hcall⟩ := Option.bind_eq_some_iff.1 hcall
  by_cases hp : p = 0
  · simp [hp] at hcall
  · simp only [if_neg hp] at hcall
    obtain ⟨⟨target, s'⟩, hrename, hcall⟩ := Option.bind_eq_some_iff.1 hcall
    cases target with
    | none => cases hcall
    | some target =>
      obtain ⟨htarget, rfl⟩ := Prod.mk.inj (Option.some.inj hcall)
      rw [hrename, htarget]

/-- If there is memory, the tree becomes that of the call without the heap. -/
theorem exists_renameChild_of_memory (hwf : Heap.WellFormed header ⟨v.heap, blocks, []⟩)
    (hmem : ¬NoMemory header v newName)
    (hcall : v.vfs.renameChild this pid oldName newDir newName true = some (some i, s')) :
    ∃ v', v.renameChild header this pid oldName newDir newName = some (some i, v') ∧
      v'.vfs = s' := by
  obtain ⟨T, R, hinv⟩ := hwf
  obtain ⟨p, h₁, halloc, -⟩ := Heap.allocate_spec hinv (word (CStr.strlen newName.1 + 1))
  have hp : p ≠ 0 := by
    rintro rfl
    exact hmem (by rw [NoMemory, halloc]; rfl)
  rw [VfsHeap.renameChild, halloc]
  simp [hp, hcall]

theorem Renames.of_memory (hs : Tree v.vfs) (hi : i ∈ v.vfs.children this)
    (hname : (v.vfs.nodes i).HasName oldName) (hmem : ¬NoMemory header v newName)
    (hr : Renames header blocks v this pid oldName newDir newName i) :
    newDir = this ∧ newName.1.length = oldName.1.length ∧
      v.vfs.childNamed this oldName.1 (CStr.strlen oldName.1) = some i ∧ Counted v.vfs this := by
  obtain ⟨r, v', hcall, -, hmoved⟩ := hr
  obtain ⟨rfl, hm⟩ := hmoved hmem
  exact hs.of_moved hi hname (renameChild_of_some hcall) hm

/-- Without directories, no node is returned. -/
theorem not_renames_of_memory (hown : v.vfs.ownInit = false) (hmem : ¬NoMemory header v newName) :
    ¬Renames header blocks v this pid oldName newDir newName i := by
  rintro ⟨r, v', hcall, -, hmoved⟩
  obtain ⟨rfl, -⟩ := hmoved hmem
  obtain ⟨target, -, hfind, -⟩ :=
    (renameChild_cases (renameChild_of_some hcall)).resolve_left (by simp)
  have hlists := (findAllInDir_eq_some_iff.1 hfind).1
  rw [hasLists, hown] at hlists
  exact Bool.false_ne_true hlists

/-- **A child is renamed** as it should be just if there is no memory, or, where there are
    directories, the new name is for the same directory, and as long as the old one, by which the
    child is found, and the counter of the directory is right before. -/
theorem renames_iff (hs : v.vfs.ownInit = true → Tree v.vfs)
    (hwf : Heap.WellFormed header ⟨v.heap, blocks, []⟩)
    (hi : i ∈ v.vfs.children this) (hname : (v.vfs.nodes i).name = some oldName)
    (hcan : (v.vfs.nodes i).canRemove pid) (hfresh : ¬v.vfs.Taken newDir newName) :
    Renames header blocks v this pid oldName newDir newName i ↔
      NoMemory header v newName ∨
        v.vfs.ownInit = true ∧ newDir = this ∧ newName.1.length = oldName.1.length ∧
          v.vfs.childNamed this oldName.1 (CStr.strlen oldName.1) = some i ∧
            Counted v.vfs this := by
  -- Without memory for the name nothing is changed, and nothing need be.
  by_cases hno : NoMemory header v newName
  · obtain ⟨hcall, hsame⟩ := unchanged_of_noMemory this pid oldName newDir hwf hno
    exact iff_of_true ⟨_, _, hcall, fun _ => hsame, fun h => absurd hno h⟩ (.inl hno)
  rw [or_iff_right hno]
  cases hown : v.vfs.ownInit with
  | false => exact iff_of_false (not_renames_of_memory hown hno) fun h => nomatch h.1
  | true =>
    have hs := hs hown
    have hname := (hs.hasName_iff hi).2 hname
    rw [and_iff_right rfl]
    constructor
    · exact fun hr => hr.of_memory hs hi hname hno
    · rintro ⟨rfl, hlen, hfind, hcount⟩
      obtain ⟨k, hk, hik⟩ := mem_children.1 hi
      have hfind' :
          v.vfs.findAllInDir newDir oldName.1 (CStr.strlen newName.1) = some (some i) := by
        rw [CStr.strlen, hlen]
        exact findAllInDir_eq_some_iff.2 ⟨hs.hasLists (hs.dir_type hk hik), hfind⟩
      obtain ⟨v', hcall, hv'⟩ := exists_renameChild_of_memory hwf hno (renameChild_same hfind' hcan)
      exact ⟨_, v', hcall, by simp, fun _ => ⟨rfl, hv' ▸ hs.moved hname hfind hfresh hlen hcount⟩⟩

/-- A file system with a heap of one free block. -/
def ofVfs (s : Vfs) : VfsHeap := ⟨s, Heap.addHeapBlock 64 ⟨fun _ => 0, 0, 0⟩ 1000 2000, fun _ => 0⟩

instance (header : ℕ) (v : VfsHeap) (newName : CStr) : Decidable (NoMemory header v newName) :=
  inferInstanceAs (Decidable (_ = _))

instance (s : Vfs) (d : Slot) : Decidable (Counted s d) := inferInstanceAs (Decidable (_ = _))

instance (s : Vfs) (d : Slot) (name : CStr) : Decidable (Taken s d name) :=
  inferInstanceAs (Decidable (∃ i ∈ s.children d, _ = _))

theorem zero_not_mem_long : 0 ∉ List.replicate 1500 (97 : UInt8) :=
  fun h => absurd (List.eq_of_mem_replicate h) (by decide)

/-- There is no memory for a long name. And if there are directories, a link `b` is renamed to `c`,
    in a directory whose owner is 0xffff. -/
theorem renames_link :
    Renames 64 [(1000, 2000)] (ofVfs init) rootNode kernelPid home
      rootNode ⟨List.replicate 1500 97, zero_not_mem_long⟩ homeNode ∧
    ∃ s, Renames 64 [(1000, 2000)] (ofVfs s) 5 7 (.ofChars ['b'] (by decide)) 5
      (.ofChars ['c'] (by decide)) 6 := by
  constructor
  · have hown (h : (ofVfs init).vfs.ownInit = true) : Tree (ofVfs init).vfs :=
      Bool.noConfusion (flat_init.ownInit.symm.trans h)
    exact (renames_iff (v := ofVfs init) hown Heap.wellFormed_block (by decide +kernel)
      (by decide +kernel)
      (by decide +kernel) (by decide +kernel)).2 (.inl (by decide +kernel))
  · let b : CStr := .ofChars ['b'] (by decide)
    let c : CStr := .ofChars ['c'] (by decide)
    let dir : CStr := .ofChars ['d'] (by decide)
    obtain ⟨s, hrun, hs⟩ := Run.exists_of_execute (by decide +kernel :
      (execute step (fun s op => Allowed s op ∧ Tame s op) (start true)
        [.mkdir homeNode 0xffff dir true, .symlink 5 7 b true]).map
        (fun s => decide (6 ∈ s.children 5 ∧ (s.nodes 6).name = some b ∧ (s.nodes 6).canRemove 7 ∧
          ¬s.Taken 5 c ∧ s.childNamed 5 b.1 1 = some 6 ∧ Counted s 5)) = some true)
    obtain ⟨hi, hname, hcan, hfresh, hfind, hcount⟩ := of_decide_eq_true hs
    have htree := tree_of_run hrun
    exact ⟨s,
      (renames_iff (v := ofVfs s) (fun _ => htree) Heap.wellFormed_block hi hname hcan hfresh).2
      (.inr ⟨htree.ownInit, rfl, by decide, hfind, hcount⟩)⟩

/-- The kernel renames the home directory, to a name of the same length. And if there are
    directories, it renames it to a longer name, and to a directory in `tmp`. -/
theorem not_renames :
    ¬Renames 64 [(1000, 2000)] (ofVfs init) rootNode kernelPid home
      rootNode (.ofChars ['h', 'o', 'l', 'd'] (by decide)) homeNode ∧
    ¬Renames 64 [(1000, 2000)] (ofVfs (start true)) rootNode kernelPid
      home rootNode (.ofChars ['h', 'o', 'm', 'e', 's'] (by decide))
      homeNode ∧
    ¬Renames 64 [(1000, 2000)] (ofVfs (start true)) rootNode kernelPid
      home tmpNode home
      homeNode := by
  have hi : homeNode ∈ (start true).children rootNode := by decide +kernel
  have hname : ((start true).nodes homeNode).HasName home :=
    (tree_start.hasName_iff hi).2 (by decide +kernel)
  refine ⟨not_renames_of_memory (v := ofVfs init) flat_init.ownInit (by decide +kernel),
    fun hr => ?_, fun hr => ?_⟩
  · obtain ⟨-, hlen, -⟩ :=
      hr.of_memory (v := ofVfs (start true)) tree_start hi hname (by decide +kernel)
    exact absurd hlen (by decide)
  · obtain ⟨hdir, -⟩ :=
      hr.of_memory (v := ofVfs (start true)) tree_start hi hname (by decide +kernel)
    exact absurd hdir (by decide)

end Vfs

end DemoOs
