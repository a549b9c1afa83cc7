import DemoOs.Vfs.Calls

/-!
# Names in a directory

No two children of a directory should have the same name, and a call that would make it so should be
refused, with `EEXIST`, or with a null pointer in the case of `renameChild` (`Sound`). The calls
look for the name, but not everywhere:

* a search of a node that is no directory does not return, and there are no directories in the code;
* `mkdir`, `link`, `symlink` and `createdev` look for it among the files only, so that it may be
  that of a directory, and they do not find the empty name;
* `renameChild` looks for the old name (in the length of the new one), and not for the new name.

A call is sound just if it does not fall into one of these gaps (`Clear`, `sound_iff_clear`).
-/

namespace DemoOs

namespace Vfs

open Family

variable {s s' : Vfs} {dir newDir this d i j target : Slot} {t : VfsNodeType}
  {name oldName newName : CStr} {pid : UInt16} {h : NodeHdr} {op : VfsOp}

/-- The children of a directory, of both lists. -/
def children (s : Vfs) (d : Slot) : List Slot := s.lists (.dirs d) ++ s.lists (.files d)

/-- In every directory, the names of the children differ. -/
def UniqueNames (s : Vfs) : Prop := ∀ d, ((s.children d).map fun i => (s.nodes i).name).Nodup

/-- The name is taken in the directory. -/
def Taken (s : Vfs) (dir : Slot) (name : CStr) : Prop :=
  ∃ i ∈ s.children dir, (s.nodes i).name = some name

/-- The call is to give a child of a directory the name of another. -/
def Duplicates (s : Vfs) : VfsOp → Prop
  | .renameChild this _ oldName newDir newName _ =>
    ∃ target, s.childNamed this oldName.1 (CStr.strlen newName.1) = some target ∧
      ∃ i ∈ s.children newDir, i ≠ target ∧ (s.nodes i).name = some newName
  | op => ∃ dir t name, s.creation op = some (dir, t, name) ∧ s.Taken dir name

/-- What a call returns that is refused. -/
def refusal : VfsOp → VfsResult
  | .renameChild .. => .node none
  | _ => .err .EEXIST

/-- The call leaves the names different, and nothing changed if it would not. -/
def Sound (s : Vfs) (op : VfsOp) : Prop :=
  (∀ r s', s.call op = some (r, s') → UniqueNames s') ∧
    (Duplicates s op → s.call op = some (refusal op, s))

/-- The calls that make and rename nodes, in directories. -/
def Naming (s : Vfs) : VfsOp → Prop
  | .mkdir .. | .symlink .. | .createdev .. => True
  | .link _ _ dir _ _ => AsDirectory s dir
  | .renameChild this _ _ newDir _ _ => AsDirectory s this ∧ AsDirectory s newDir
  | _ => False

/-- The name of a node to be made is not taken, or found among the files of a directory. The new
    name of a node that is to be renamed is not that of another child of the new directory, unless
    the node is found, and may not be renamed. -/
def Clear (s : Vfs) : VfsOp → Prop
  | .renameChild this pid oldName newDir newName copied =>
    copied → ∀ target, s.childNamed this oldName.1 (CStr.strlen newName.1) = some target →
      (s.hasLists this → (s.nodes target).canRemove pid) →
      ∀ i ∈ s.children newDir, (s.nodes i).name = some newName → i = target
  | op => ∀ dir t name, s.creation op = some (dir, t, name) → s.Taken dir name →
    s.hasLists dir ∧ name.1 ≠ [] ∧ ∃ i ∈ s.lists (.files dir), (s.nodes i).name = some name

/-- The children of a directory are those in its two lists. -/
theorem mem_children : i ∈ s.children d ↔ ∃ h : NodeHdr, h.dir = some d ∧ i ∈ s.lists h := by
  rw [children, List.mem_append]
  constructor
  · rintro (hi | hi)
    · exact ⟨_, rfl, hi⟩
    · exact ⟨_, rfl, hi⟩
  · rintro ⟨h, hh, hi⟩
    cases h with
    | free => exact nomatch hh
    | dirs e => exact .inl (Option.some.inj hh ▸ hi)
    | files e => exact .inr (Option.some.inj hh ▸ hi)

/-- A child that is found is one. -/
theorem mem_children_of_childNamed {subName : List UInt8} {nameLen : ℕ}
    (hfind : s.childNamed d subName nameLen = some i) : i ∈ s.children d := by
  obtain ⟨-, hi, -⟩ := findIn_eq_some hfind
  exact List.mem_append.2 (List.mem_append.1 hi).symm

/-! ## The invariant -/

/-- Names are different, and a node is in its parent, unless that is null. -/
structure Named (s : Vfs) : Prop extends Linked s where
  unique : ∀ {d i j name}, i ∈ s.children d → j ∈ s.children d → (s.nodes i).HasName name →
    (s.nodes j).HasName name → i = j
  parent : ∀ {d i}, i ∈ s.children d →
    (s.nodes i).parent = none ∨ ((s.nodes i).parent = some d ∧ d ≠ i)

/-- A child has the name that it was given. -/
theorem Linked.hasName_iff (hs : Linked s) (hi : i ∈ s.children d) :
    (s.nodes i).HasName name ↔ (s.nodes i).name = some name := by
  refine ⟨And.left, fun hname => ?_⟩
  obtain ⟨h, hh, hi⟩ := mem_children.1 hi
  have hne : h ≠ .free := by
    rintro rfl
    exact nomatch hh
  obtain ⟨nm, hnm⟩ := hs.named h hne i hi
  obtain rfl : nm = name := Option.some.inj (hnm.1.symm.trans hname)
  exact hnm

/-- No child is there twice. -/
theorem Linked.nodup_children (hs : Linked s) (d : Slot) : (s.children d).Nodup :=
  List.nodup_append'.2 ⟨hs.apart.nodup _, hs.apart.nodup _, fun _ hi hj =>
    nomatch hs.apart.unique hi hj⟩

/-- No two children of a directory have one name. -/
theorem Named.uniqueNames (hs : Named s) : UniqueNames s := by
  intro d
  refine (hs.nodup_children d).map_on fun i hi j hj heq => ?_
  obtain ⟨h, hh, hmem⟩ := mem_children.1 hi
  have hne : h ≠ .free := by
    rintro rfl
    exact nomatch hh
  obtain ⟨nm, hnm⟩ := hs.named h hne i hmem
  exact hs.unique hi hj hnm ((hs.hasName_iff hj).2 (heq ▸ hnm.1))

/-! ## Creation -/

/-- The new node is a child of its directory, and no other child comes or goes. -/
theorem Created.mem_children_iff (hs : Linked s) (hc : Created s s' dir i t name) :
    j ∈ s'.children d ↔ (j = i ∧ d = dir) ∨ (j ≠ i ∧ j ∈ s.children d) := by
  simp only [mem_children, hc.lists, hs.apart.mem_move]
  constructor
  · rintro ⟨h, hh, ⟨rfl, rfl⟩ | ⟨hne, hj⟩⟩
    · rw [NodeHdr.dir_ofType, Option.some_inj] at hh
      exact .inl ⟨rfl, hh.symm⟩
    · exact .inr ⟨hne, h, hh, hj⟩
  · rintro (⟨rfl, rfl⟩ | ⟨hne, h, hh, hj⟩)
    · exact ⟨_, NodeHdr.dir_ofType t d, .inl ⟨rfl, rfl⟩⟩
    · exact ⟨h, hh, .inr ⟨hne, hj⟩⟩

/-- A child of a new name. -/
theorem Named.created (hs : Named s) (hc : Created s s' dir i t name) (hfresh : ¬s.Taken dir name) :
    Named s' where
  toLinked := hs.toLinked.created hc
  unique {d j k nm} hj hk hjn hkn := by
    have hlinked := hs.toLinked
    -- A child with the name of the new one would be a child with the name before.
    have hnew {k : Slot} (hne : k ≠ i) (hk : k ∈ s.children dir) (hi : (s'.nodes i).HasName nm) :
        ¬(s'.nodes k).HasName nm := fun hkn => by
      rw [hi.eq hc.isNew.hasName, hc.hasName_iff hne] at hkn
      exact hfresh ⟨k, hk, hkn.1⟩
    rcases (hc.mem_children_iff hlinked).1 hj with ⟨rfl, rfl⟩ | ⟨hji, hj⟩ <;>
      rcases (hc.mem_children_iff hlinked).1 hk with ⟨rfl, hd⟩ | ⟨hki, hk⟩
    · rfl
    · exact absurd hkn (hnew hki hk hjn)
    · exact absurd hjn (hnew hji (hd ▸ hj) hkn)
    · exact hs.unique hj hk ((hc.hasName_iff hji).1 hjn) ((hc.hasName_iff hki).1 hkn)
  parent {d j} hj := by
    rcases (hc.mem_children_iff hs.toLinked).1 hj with ⟨rfl, rfl⟩ | ⟨hji, hj⟩
    · exact .inr ⟨hc.isNew.parent, hc.ne_dir.symm⟩
    · rw [hc.parent_eq hji]
      exact hs.parent hj

/-! ## Renaming -/

/-- The node `target` has got the new name, and is a child of the new directory only. -/
structure Renamed (s s' : Vfs) (target newDir : Slot) (newName : CStr) : Prop where
  apart : Apart s'.lists
  ownInit : s'.ownInit = s.ownInit
  mem_iff : ∀ {h j}, j ≠ target → (j ∈ s'.lists h ↔ j ∈ s.lists h)
  dir_eq : ∀ {h}, target ∈ s'.lists h → h.dir = some newDir
  hasName : (s'.nodes target).HasName newName
  parent : (s'.nodes target).parent = none ∨
    ((s'.nodes target).parent = some newDir ∧ newDir ≠ target)
  other_eq : ∀ j ≠ target, ∃ r o, s'.nodes j = { s.nodes j with refCount := r, ower := o }

/-- The other nodes stay where they are. -/
theorem Renamed.mem_children_iff (hr : Renamed s s' target newDir newName) (hne : j ≠ target) :
    j ∈ s'.children d ↔ j ∈ s.children d := by
  simp only [mem_children, hr.mem_iff hne]

/-- They keep their names. -/
theorem Renamed.hasName_iff (hr : Renamed s s' target newDir newName) (hne : j ≠ target) :
    (s'.nodes j).HasName name ↔ (s.nodes j).HasName name := by
  obtain ⟨r, o, h⟩ := hr.other_eq j hne
  rw [h]
  rfl

/-- The node is in the new directory only. -/
theorem Renamed.dir_of_mem_children (hr : Renamed s s' target newDir newName)
    (hi : target ∈ s'.children d) : d = newDir := by
  obtain ⟨h, hh, hi⟩ := mem_children.1 hi
  exact Option.some.inj (hh.symm.trans (hr.dir_eq hi))

/-- It is not given back. -/
theorem Renamed.ne_of_mem_free (hr : Renamed s s' target newDir newName) (hj : j ∈ s'.lists .free) :
    j ≠ target := by
  rintro rfl
  exact nomatch hr.dir_eq hj

/-- Every list has what it should, after a renaming. -/
theorem Linked.renamed (hs : Linked s) (hr : Renamed s s' target newDir newName)
    (hnew : newDir ∉ s.lists .free) : Linked s' where
  apart := hr.apart
  childless hown j hj h hh := by
    rw [hr.ownInit] at hown
    have hjfree := (hr.mem_iff (hr.ne_of_mem_free hj)).1 hj
    refine List.eq_nil_iff_forall_not_mem.2 fun x hx => ?_
    by_cases hxt : x = target
    · rw [hxt] at hx
      obtain rfl : j = newDir := Option.some.inj (hh.symm.trans (hr.dir_eq hx))
      exact hnew hjfree
    · rw [hr.mem_iff hxt, hs.childless hown j hjfree h hh] at hx
      exact List.not_mem_nil hx
  blank j hj := by
    have hne := hr.ne_of_mem_free hj
    obtain ⟨r, o, hnode⟩ := hr.other_eq j hne
    rw [hnode]
    exact hs.blank j ((hr.mem_iff hne).1 hj)
  named h hh j hj := by
    by_cases hjt : j = target
    · exact ⟨newName, hjt ▸ hr.hasName⟩
    · obtain ⟨nm, hnm⟩ := hs.named h hh j ((hr.mem_iff hjt).1 hj)
      exact ⟨nm, (hr.hasName_iff hjt).2 hnm⟩

/-- And names are unique if no other child has the new one. -/
theorem Named.renamed (hs : Named s) (hr : Renamed s s' target newDir newName)
    (hnew : newDir ∉ s.lists .free)
    (hfresh : ∀ i ∈ s.children newDir, (s.nodes i).name = some newName → i = target) :
    Named s' where
  toLinked := hs.toLinked.renamed hr hnew
  unique {d j k nm} hj hk hjn hkn := by
    have hother {k : Slot} (hne : k ≠ target) (hk : k ∈ s'.children newDir)
        (ht : (s'.nodes target).HasName nm) : ¬(s'.nodes k).HasName nm := fun hkn => by
      rw [ht.eq hr.hasName, hr.hasName_iff hne] at hkn
      exact hne (hfresh k ((hr.mem_children_iff hne).1 hk) hkn.1)
    by_cases hjt : j = target <;> by_cases hkt : k = target
    · rw [hjt, hkt]
    · subst hjt
      exact absurd hkn (hother hkt (hr.dir_of_mem_children hj ▸ hk) hjn)
    · subst hkt
      exact absurd hjn (hother hjt (hr.dir_of_mem_children hk ▸ hj) hkn)
    · exact hs.unique ((hr.mem_children_iff hjt).1 hj) ((hr.mem_children_iff hkt).1 hk)
        ((hr.hasName_iff hjt).1 hjn) ((hr.hasName_iff hkt).1 hkn)
  parent {d j} hj := by
    by_cases hjt : j = target
    · subst hjt
      rw [hr.dir_of_mem_children hj]
      exact hr.parent
    · obtain ⟨r, o, hnode⟩ := hr.other_eq j hjt
      rw [hnode]
      exact hs.parent ((hr.mem_children_iff hjt).1 hj)

/-- The name is all that changes of a node that stays in its directory. -/
theorem Named.renamed_setNode {f : VfsNode → VfsNode} (hs : Named s) (hi : target ∈ s.children this)
    (hname : (f (s.nodes target)).HasName newName)
    (hparent : (f (s.nodes target)).parent = (s.nodes target).parent) :
    Renamed s (s.setNode target f) target this newName where
  apart := hs.apart
  ownInit := rfl
  mem_iff _ := .rfl
  dir_eq {h} hmem := by
    obtain ⟨k, hk, hi⟩ := mem_children.1 hi
    exact hs.apart.unique hmem hi ▸ hk
  hasName := by rwa [setNode_self]
  parent := by
    rw [setNode_self, hparent]
    exact hs.parent hi
  other_eq j hj := ⟨_, _, setNode_of_ne hj⟩

/-- `addChild` leaves the parent null, which `detach` has made it. -/
theorem Detached.parent_addChild (hd : Detached s s' this target) :
    ((s'.addChild newDir target).nodes target).parent = none := by
  obtain ⟨nm, hnode⟩ := hd.node_eq
  rw [addChild, addTail, setList_nodes]
  by_cases ht : target = newDir
  · rw [ht, ref, setNode_self, VfsNode.addRefCount_parent, ← ht, hnode]
  · rw [ref, setNode_of_ne ht, hnode]

/-- A node that has been detached goes to the files of the new directory. -/
theorem Linked.renamed_addChild {f : VfsNode → VfsNode} (hs : Linked s)
    (hd : Detached s s' this target) (hne : newDir ≠ this)
    (hname : ∀ n, (f n).HasName newName) (hparent : ∀ n, (f n).parent = n.parent) :
    Renamed s ((s'.addChild newDir target).setNode target f) target newDir newName := by
  obtain ⟨nm, hnode⟩ := hd.node_eq
  -- It is of no type any more, so that it goes to the files, whatever it was.
  have hhdr : (s'.ref newDir).childHdr newDir target = .files newDir := by
    refine if_neg ?_
    by_cases ht : target = newDir
    · rw [ht, ref, setNode_self, VfsNode.addRefCount_nodeType, ← ht, hnode]
      rintro ⟨⟩
    · rw [ref, setNode_of_ne ht, hnode]
      rintro ⟨⟩
  have hlists : ((s'.addChild newDir target).setNode target f).lists =
      move s.lists target (.files newDir) := by
    funext h
    rw [setNode_lists, addChild, hhdr, addTail, setList]
    by_cases hh : h = .files newDir
    · subst hh
      simp [ref, hd.lists, move_self]
    · simp [ref, hd.lists, move_of_ne hh, Function.update_of_ne hh]
  refine
    { apart := hlists ▸ hs.apart.move _ _
      ownInit := hd.ownInit
      mem_iff := fun hj => ?_
      dir_eq := fun hmem => ?_
      hasName := ?_
      parent := .inl ?_
      other_eq := fun j hj => ?_ }
  · rw [hlists, hs.apart.mem_move_of_ne hj]
  · rw [hlists, hs.apart.mem_move] at hmem
    rw [(hmem.resolve_right fun h => h.1 rfl).2]
    rfl
  · rw [setNode_self]
    exact hname _
  · rw [setNode_self, hparent, hd.parent_addChild]
  · rw [setNode_of_ne hj, addChild, addTail, setList_nodes]
    by_cases hjn : j = newDir
    · rw [hjn, ref, setNode_self, hd.other_eq newDir (hjn ▸ hj) hne]
      exact ⟨_, _, rfl⟩
    · rw [ref, setNode_of_ne hjn]
      by_cases hjt : j = this
      · rw [hjt, hd.dir_eq]
        exact ⟨_, _, rfl⟩
      · exact ⟨_, _, hd.other_eq j hj hjt⟩

/-- `findAllInDir` finds a child by its name, in a directory that has lists. -/
theorem findAllInDir_eq_some_iff {subName : List UInt8} {nameLen : ℕ} :
    s.findAllInDir d subName nameLen = some (some target) ↔
      s.hasLists d ∧ s.childNamed d subName nameLen = some target := by
  rw [findAllInDir, search, Option.ite_none_right_eq_some, Option.some_inj]
  refine and_congr_left fun hfind => or_iff_right (findIn_eq_some hfind).1

/-- Without memory for the name, nothing is done. -/
theorem renameChild_of_not_copied :
    s.renameChild this pid oldName newDir newName false = some (none, s) :=
  rfl

/-- If the search does not return, the call does not. -/
theorem renameChild_of_none (hfind : s.findAllInDir this oldName.1 (CStr.strlen newName.1) = none) :
    s.renameChild this pid oldName newDir newName true = none := by
  rw [Vfs.renameChild, if_pos rfl, hfind]
  rfl

/-- If there is no child of the old name, nothing is done. -/
theorem renameChild_of_not_found
    (hfind : s.findAllInDir this oldName.1 (CStr.strlen newName.1) = some none) :
    s.renameChild this pid oldName newDir newName true = some (none, s) := by
  rw [Vfs.renameChild, if_pos rfl, hfind]
  rfl

/-- Nor if it must not be removed. -/
theorem renameChild_of_not_canRemove
    (hfind : s.findAllInDir this oldName.1 (CStr.strlen newName.1) = some (some target))
    (hcan : ¬(s.nodes target).canRemove pid) :
    s.renameChild this pid oldName newDir newName true = some (none, s) := by
  rw [Vfs.renameChild, if_pos rfl, hfind]
  exact if_neg hcan

/-- In the same directory, only the name of the node changes. -/
theorem renameChild_same
    (hfind : s.findAllInDir this oldName.1 (CStr.strlen newName.1) = some (some target))
    (hcan : (s.nodes target).canRemove pid) :
    s.renameChild this pid oldName this newName true = some (some target,
      s.setNode target fun n =>
        { n with name := some newName, nameLen := CStr.strlen newName.1 }) := by
  unfold Vfs.renameChild
  rw [if_pos rfl, hfind]
  simp only [Option.bind_eq_bind, Option.bind_some, hcan, if_true]
  by_cases hrel : (s.nodes target).needReleased
  · simp [hrel, setNode_setNode]
  · simp [hrel]

/-- To another directory, the node is detached and added. -/
theorem exists_renameChild
    (hfind : s.findAllInDir this oldName.1 (CStr.strlen newName.1) = some (some target))
    (hcan : (s.nodes target).canRemove pid) (hparent : (s.nodes target).parent = some this)
    (hne : this ≠ target) (hdir : newDir ≠ this) :
    ∃ s', Detached s s' this target ∧
      s.renameChild this pid oldName newDir newName true = some (some target,
        (s'.addChild newDir target).setNode target fun n =>
          { n with name := some newName, nameLen := CStr.strlen newName.1 }) := by
  obtain ⟨h, -, hi⟩ :=
    mem_children.1 (mem_children_of_childNamed (findAllInDir_eq_some_iff.1 hfind).2)
  obtain ⟨s₁, hdetach, hd⟩ := exists_detach hparent hne (Option.some_ne_none this).symm hi
  refine ⟨s₁, hd, ?_⟩
  unfold Vfs.renameChild
  rw [if_pos rfl]
  simp [hfind, hcan, hdir, hdetach]

/-- A node that is found and may be renamed gets the new name, unless its parent is null where it is
    to be detached. -/
theorem Named.renameChild (hs : Named s)
    (hfind : s.findAllInDir this oldName.1 (CStr.strlen newName.1) = some (some target))
    (hcan : (s.nodes target).canRemove pid) :
    s.renameChild this pid oldName newDir newName true = none ∨
      ∃ s', s.renameChild this pid oldName newDir newName true = some (some target, s') ∧
        Renamed s s' target newDir newName := by
  have hi := mem_children_of_childNamed (findAllInDir_eq_some_iff.1 hfind).2
  by_cases hdir : newDir = this
  · subst hdir
    exact .inr ⟨_, renameChild_same hfind hcan, hs.renamed_setNode hi ⟨rfl, rfl⟩ rfl⟩
  · rcases hs.parent hi with hnull | ⟨hparent, hne⟩
    · refine .inl ?_
      unfold Vfs.renameChild
      simp [hfind, hcan, hdir, detach, hnull]
    · obtain ⟨s₁, hd, hrename⟩ := exists_renameChild hfind hcan hparent hne hdir
      exact .inr ⟨_, hrename, hs.renamed_addChild hd hdir (fun _ => ⟨rfl, rfl⟩) fun _ => rfl⟩

/-! ## Soundness -/

/-- The calls are those that make nodes, and `renameChild`. -/
theorem Naming.cases (hg : Naming s op) :
    (Creates op ∧ (Duplicates s op ↔ ∃ dir t name, s.creation op = some (dir, t, name) ∧
        s.Taken dir name) ∧
      (Clear s op ↔ ∀ dir t name, s.creation op = some (dir, t, name) → s.Taken dir name →
        s.hasLists dir ∧ name.1 ≠ [] ∧ ∃ i ∈ s.lists (.files dir), (s.nodes i).name = some name) ∧
      refusal op = .err .EEXIST) ∨
    ∃ this pid oldName newDir newName copied,
      op = .renameChild this pid oldName newDir newName copied := by
  cases op with
  | mkdir | symlink | link | createdev => exact .inl ⟨trivial, .rfl, .rfl, rfl⟩
  | renameChild => exact .inr ⟨_, _, _, _, _, _, rfl⟩
  | _ => exact hg.elim

/-- Nodes are made in directories in use. -/
theorem Naming.not_free (hs : Linked s) (hg : Naming s op)
    (hop : s.creation op = some (dir, t, name)) : dir ∉ s.lists .free :=
  (hs.asDirectory_of_creation hop fun _ _ _ heq => by rwa [heq] at hg).1

/-- A name is found among the files just if it is not empty and a file has it. -/
theorem Linked.found_iff (hs : Linked s) :
    (s.fileNamed dir name.1 (CStr.strlen name.1)).isSome ↔
      name.1 ≠ [] ∧ ∃ i ∈ s.lists (.files dir), (s.nodes i).name = some name := by
  rw [hs.isSome_fileNamed_iff]
  refine and_congr_right fun _ => exists_congr fun i => and_congr_right fun hi => ?_
  exact hs.hasName_iff (List.mem_append_right _ hi)

/-- A call that makes a node. -/
theorem Named.creates {r : VfsResult} (hs : Named s) (hg : Naming s op) (hc : Clear s op)
    (hop : Creates op) (hcall : s.call op = some (r, s')) : Named s' := by
  rcases call_of_creates (s := s) hop with ⟨-, e, hsame⟩ | ⟨dir, t, name, _, _, hcr, -⟩
  · exact (Prod.mk.inj (Option.some.inj (hsame.symm.trans hcall))).2 ▸ hs
  · have hclear : s.Taken dir name → (s.fileNamed dir name.1 (CStr.strlen name.1)).isSome := by
      rcases hg.cases with ⟨-, -, hclear, -⟩ | ⟨_, _, _, _, _, _, rfl⟩
      · exact fun htaken => hs.found_iff.2 (hclear.1 hc dir _ name hcr htaken).2
      · exact hop.elim
    rcases hs.call_of_creation hcr (hg.not_free hs.toLinked hcr) with
      ⟨-, -, h⟩ | ⟨-, ⟨-, h⟩ | ⟨hnone, h | ⟨i, s₁, h, hcreated⟩⟩⟩
    · exact nomatch h.symm.trans hcall
    · exact (Prod.mk.inj (Option.some.inj (h.symm.trans hcall))).2 ▸ hs
    · exact (Prod.mk.inj (Option.some.inj (h.symm.trans hcall))).2 ▸ hs
    · obtain rfl := (Prod.mk.inj (Option.some.inj (h.symm.trans hcall))).2
      refine hs.created hcreated fun htaken => ?_
      have hsome := hclear htaken
      rw [hnone] at hsome
      exact Bool.false_ne_true hsome

/-- `renameChild` does nothing, or renames a node. -/
theorem Named.renameChild_cases {r : Option Slot} {copied : Bool} (hs : Named s)
    (hcall : s.renameChild this pid oldName newDir newName copied = some (r, s')) :
    (r = none ∧ s' = s) ∨
      ∃ target, copied = true ∧ s.hasLists this ∧
        s.childNamed this oldName.1 (CStr.strlen newName.1) = some target ∧
        (s.nodes target).canRemove pid ∧ r = some target ∧ Renamed s s' target newDir newName := by
  have hsame (h : s.renameChild this pid oldName newDir newName copied = some (none, s)) :
      r = none ∧ s' = s := by
    obtain ⟨rfl, rfl⟩ := Prod.mk.inj (Option.some.inj (h.symm.trans hcall))
    exact ⟨rfl, rfl⟩
  cases copied with
  | false => exact .inl (hsame renameChild_of_not_copied)
  | true =>
    cases hfind : s.findAllInDir this oldName.1 (CStr.strlen newName.1) with
    | none => exact nomatch (renameChild_of_none hfind).symm.trans hcall
    | some found =>
      cases found with
      | none => exact .inl (hsame (renameChild_of_not_found hfind))
      | some target =>
        by_cases hcan : (s.nodes target).canRemove pid
        · rcases hs.renameChild hfind hcan with hnone | ⟨s₁, hsome, hr⟩
          · exact nomatch hnone.symm.trans hcall
          · obtain ⟨rfl, rfl⟩ := Prod.mk.inj (Option.some.inj (hsome.symm.trans hcall))
            obtain ⟨hlists, hnamed⟩ := findAllInDir_eq_some_iff.1 hfind
            exact .inr ⟨target, rfl, hlists, hnamed, hcan, rfl, hr⟩
        · exact .inl (hsame (renameChild_of_not_canRemove hfind hcan))

/-- A clear call keeps the invariant. -/
theorem Named.call {r : VfsResult} (hs : Named s) (hg : Naming s op) (hc : Clear s op)
    (hcall : s.call op = some (r, s')) : Named s' := by
  rcases hg.cases with ⟨hop, -⟩ | ⟨this, pid, oldName, newDir, newName, copied, rfl⟩
  · exact hs.creates hg hc hop hcall
  · obtain ⟨⟨r, s₁⟩, hrename, heq⟩ := Option.map_eq_some_iff.1 hcall
    obtain rfl : s₁ = s' := (Prod.mk.inj heq).2
    rcases hs.renameChild_cases hrename with ⟨-, rfl⟩ | ⟨target, hcopied, -, hfind, hcan, -, hr⟩
    · exact hs
    · exact hs.renamed hr hg.2.1 (hc hcopied target hfind fun _ => hcan)

/-- A call that makes a node keeps names unique if its name is clear. -/
theorem Named.sound_iff_of_creates (hs : Named s) (hg : Naming s op) (hop : Creates op) :
    Sound s op ↔ Clear s op := by
  -- A creation is a duplicate if the name is taken, and is clear if a search finds it then.
  obtain ⟨-, hdup, hclear, hrefusal⟩ : _ ∧ _ ∧ _ ∧ _ := hg.cases.resolve_right fun h => by
    obtain ⟨_, _, _, _, _, _, rfl⟩ := h
    exact hop.elim
  constructor
  · rintro ⟨-, hrefuse⟩
    refine hclear.2 fun dir t name hcr htaken => ?_
    have hcall := hrefuse (hdup.2 ⟨dir, t, name, hcr, htaken⟩)
    rw [hrefusal] at hcall
    rcases hs.call_of_creation hcr (hg.not_free hs.toLinked hcr) with
      ⟨-, -, h⟩ | ⟨hlists, ⟨hfound, -⟩ | ⟨-, h | ⟨i, s', h, -⟩⟩⟩
    · exact nomatch h.symm.trans hcall
    · have hfound := hs.found_iff.1 hfound
      exact ⟨hlists.resolve_left hfound.1, hfound⟩
    · exact nomatch h.symm.trans hcall
    · exact nomatch h.symm.trans hcall
  · intro hc
    refine ⟨fun r s' hcall => (hs.call hg hc hcall).uniqueNames, fun hd => ?_⟩
    obtain ⟨dir, t, name, hcr, htaken⟩ := hdup.1 hd
    obtain ⟨hlists, hfound⟩ := hclear.1 hc dir t name hcr htaken
    have hfound := hs.found_iff.2 hfound
    rw [hrefusal]
    rcases hs.call_of_creation hcr (hg.not_free hs.toLinked hcr) with
      ⟨-, hno, -⟩ | ⟨-, ⟨-, h⟩ | ⟨hnone, -⟩⟩
    · exact absurd hlists hno
    · exact h
    · rw [hnone] at hfound
      exact absurd hfound Bool.false_ne_true

/-- And so does a renaming. -/
theorem Named.sound_renameChild_iff {copied : Bool} (hs : Named s)
    (hg : Naming s (.renameChild this pid oldName newDir newName copied)) :
    Sound s (.renameChild this pid oldName newDir newName copied) ↔
      Clear s (.renameChild this pid oldName newDir newName copied) := by
  constructor
  · rintro ⟨-, hrefuse⟩ hcopied target hfind hcan i hi hname
    by_contra hne
    have hcall := hrefuse ⟨target, hfind, i, hi, hne, hname⟩
    obtain rfl : copied = true := hcopied
    obtain ⟨⟨r, s'⟩, hrename, heq⟩ := Option.map_eq_some_iff.1 hcall
    obtain rfl : r = none := VfsResult.node.inj (Prod.mk.inj heq).1
    by_cases hlists : s.hasLists this
    · rcases hs.renameChild (findAllInDir_eq_some_iff.2 ⟨hlists, hfind⟩) (hcan hlists) with
        hnone | ⟨s₁, hsome, -⟩
      · exact nomatch hnone.symm.trans hrename
      · exact nomatch hsome.symm.trans hrename
    · -- The search does not return.
      have hnone : s.findAllInDir this oldName.1 (CStr.strlen newName.1) = none :=
        if_neg (not_or.2 ⟨(findIn_eq_some hfind).1, hlists⟩)
      exact nomatch (renameChild_of_none hnone).symm.trans hrename
  · intro hc
    -- Where another child has the new name, the call must have failed.
    refine ⟨fun r s' hcall => (hs.call hg hc hcall).uniqueNames, fun hd => ?_⟩
    obtain ⟨target, hfind, i, hi, hne, hname⟩ := hd
    have hkeep : s.renameChild this pid oldName newDir newName copied = some (none, s) := by
      cases copied with
      | false => exact renameChild_of_not_copied
      | true =>
        obtain ⟨hlists, hcan⟩ :=
          Classical.not_imp.1 fun hcan => hne (hc rfl target hfind hcan i hi hname)
        exact renameChild_of_not_canRemove (findAllInDir_eq_some_iff.2 ⟨hlists, hfind⟩) hcan
    rw [Vfs.call, hkeep]
    rfl

/-- And any call. -/
theorem Named.sound_iff (hs : Named s) (hg : Naming s op) : Sound s op ↔ Clear s op := by
  rcases hg.cases with ⟨hop, -⟩ | ⟨this, pid, oldName, newDir, newName, copied, rfl⟩
  · exact hs.sound_iff_of_creates hg hop
  · exact hs.sound_renameChild_iff hg

/-! ## Runs -/

/-- The children `VFS::init` makes are those of the root. -/
theorem mem_children_start {own : Bool} (hi : i ∈ (start own).children d) :
    d = rootNode ∧ i ∈ (start own).lists (.ofType (startType own) rootNode) := by
  obtain ⟨h, hh, hi⟩ := mem_children.1 hi
  rcases mem_start hi with ⟨rfl, -⟩ | ⟨rfl, -⟩
  · exact nomatch hh
  · rw [NodeHdr.dir_ofType] at hh
    exact ⟨(Option.some.inj hh).symm, hi⟩

/-- They have different names. -/
theorem start_names : ∀ own, ∀ i ∈ [1, 2, 3, 4], ∀ j ∈ [1, 2, 3, 4],
    ((start own).nodes i).name = ((start own).nodes j).name → i = j := by
  decide +kernel

/-- The names of `VFS::init` are unique. -/
theorem named_start (own : Bool) : Named (start own) where
  toLinked := linked_start own
  unique {d i j name} hi hj hin hjn :=
    start_names own i (start_root own ▸ (mem_children_start hi).2) j
      (start_root own ▸ (mem_children_start hj).2) (hin.1.trans hjn.1.symm)
  parent {d i} hi := by
    have hi := mem_children_start hi
    have hlt := mem_start_root.1 hi.2
    have hparent : ((start own).nodes i).parent = some rootNode :=
      (start_nodes own i).2.trans (if_pos hlt)
    rw [hi.1]
    exact .inr ⟨hparent, hlt.2.symm⟩

/-- **At the start the names are different**, and every call of a sequence is sound just if every
    one of them is clear. In the code, where there are no directories, a name that is taken makes a
    call unsound. -/
theorem sound_iff_clear {own : Bool} {ops : List VfsOp}
    (hops : Admissible step Naming (start own) ops) :
    UniqueNames (start own) ∧
      (Admissible step Sound (start own) ops ↔ Admissible step Clear (start own) ops) := by
  refine ⟨(named_start own).uniqueNames, Admissible.iff (I := Named) ?_ ?_ (named_start own) hops⟩
  · exact fun hs hg => hs.sound_iff hg
  · intro s op s' hs hg hc hstep
    obtain ⟨⟨r, s₁⟩, hcall, rfl⟩ := Option.map_eq_some_iff.1 hstep
    exact hs.call hg hc hcall

theorem zero_not_mem_empty : 0 ∉ ([] : List Char).map Char.toUInt8 := by decide

/-- A link without a name is made in the root; and if there are directories, a second link of the
    same name is refused. -/
theorem sound_symlink :
    Admissible step Sound init [.link homeNode 7 rootNode (.ofChars [] zero_not_mem_empty) true] ∧
    Admissible step Sound (start true)
      [.symlink homeNode 7 (.ofChars ['a'] (by decide)) true,
        .symlink homeNode 7 (.ofChars ['a'] (by decide)) true] := by
  constructor
  · have hops : Admissible step Naming (start false)
        [.link homeNode 7 rootNode (.ofChars [] zero_not_mem_empty) true] :=
      ⟨⟨fun h => absurd (mem_start_free.1 h) (by decide), nofun⟩, fun _ _ => trivial⟩
    refine (sound_iff_clear hops).2.2 ⟨fun dir t name hcr htaken => ?_, fun _ _ => trivial⟩
    rw [creation] at hcr
    obtain ⟨-, heq⟩ := Option.ite_none_left_eq_some.1 hcr
    obtain ⟨rfl, hpair⟩ := Prod.mk.inj (Option.some.inj heq)
    obtain rfl := (Prod.mk.inj hpair).2
    -- None of the directories of `VFS::init` is without a name.
    obtain ⟨i, hi, hname⟩ := htaken
    have hi := (mem_children_start hi).2
    rw [start_root] at hi
    refine absurd hname ?_
    fin_cases hi <;> decide
  · have hops : Admissible step Naming (start true)
        [.symlink homeNode 7 (.ofChars ['a'] (by decide)) true,
          .symlink homeNode 7 (.ofChars ['a'] (by decide)) true] :=
      ⟨trivial, fun _ _ => ⟨trivial, fun _ _ => trivial⟩⟩
    refine (sound_iff_clear hops).2.2
      ⟨fun dir t name hcr htaken => ?_,
        fun s hs => ⟨fun dir t name hcr _ => ?_, fun _ _ => trivial⟩⟩
    · obtain ⟨rfl, -⟩ : homeNode = dir ∧ _ := Prod.mk.inj (Option.some.inj hcr)
      obtain ⟨i, hi, -⟩ := htaken
      exact absurd (mem_children_start hi).1 (by decide)
    · obtain rfl := Option.some.inj hs
      obtain ⟨rfl, heq⟩ := Prod.mk.inj (Option.some.inj hcr)
      obtain rfl := (Prod.mk.inj heq).2
      exact ⟨by decide +kernel, by decide, 5, by decide +kernel, by decide +kernel⟩

/-- A call that leaves names twice in a directory is not sound. -/
theorem not_sound_of_names {l : List (Option CStr)}
    (h : (s.call op).map (fun r => (r.2.children d).map fun i => (r.2.nodes i).name) = some l)
    (hl : ¬l.Nodup) : ¬Sound s op := by
  rintro ⟨hunique, -⟩
  obtain ⟨r, hcall, rfl⟩ := Option.map_eq_some_iff.1 h
  exact hl (hunique r.1 r.2 hcall d)

/-- Two links without a name are made in the root. And if there are directories, a second directory
    `a` is made, and a directory is renamed to a name that is taken. -/
theorem not_sound :
    ¬Admissible step Sound init
      [.link homeNode 7 rootNode (.ofChars [] (by decide)) true,
        .link homeNode 7 rootNode (.ofChars [] (by decide)) true] ∧
    ¬Admissible step Sound (start true)
      [.mkdir homeNode 7 (.ofChars ['a'] (by decide)) true,
        .mkdir homeNode 7 (.ofChars ['a'] (by decide)) true] ∧
    ¬Admissible step Sound (start true)
      [.mkdir homeNode 7 (.ofChars ['a'] (by decide)) true,
        .mkdir homeNode 7 (.ofChars ['b'] (by decide)) true,
        .renameChild homeNode 7 (.ofChars ['a'] (by decide)) homeNode
          (.ofChars ['b'] (by decide)) true] := by
  let empty : CStr := .ofChars [] (by decide)
  let a : CStr := .ofChars ['a'] (by decide)
  let b : CStr := .ofChars ['b'] (by decide)
  -- Each run leaves a directory with two children of one name.
  refine ⟨?_, ?_, ?_⟩
  · rintro ⟨-, h⟩
    obtain ⟨hsound, -⟩ := h _ rfl
    refine not_sound_of_names (d := rootNode)
      (l := [some (.ofChars ['r', 'o', 'o', 't'] (by decide)), some home,
        some (.ofChars ['d', 'e', 'v'] (by decide)), some (.ofChars ['t', 'm', 'p'] (by decide)),
        some empty, some empty]) ?_ (by decide) hsound
    decide +kernel
  · rintro ⟨-, h⟩
    obtain ⟨hsound, -⟩ := h _ rfl
    refine not_sound_of_names (d := homeNode) (l := [some a, some a]) ?_ (by decide) hsound
    decide +kernel
  · rintro ⟨-, h⟩
    obtain ⟨-, h⟩ := h _ rfl
    obtain ⟨hsound, -⟩ := h _ rfl
    refine not_sound_of_names (d := homeNode) (l := [some b, some b]) ?_ (by decide) hsound
    decide +kernel

end Vfs

end DemoOs
