import DemoOs.Vfs.Names
import DemoOs.Vfs.Pool

/-!
# Removing a node while others are made

`unlink` looks a node up and takes a reference to it, destroys it, and drops the reference; between
these steps other threads make nodes. Here a reference is a number in the counter, to which one is
added and from which one is subtracted, as it is meant (`Atomic::add` on it is another matter, see
`VfsNode.addRefCount`).

In the code there are no directories, so that `unlink` refuses to remove anything. If there are
directories, it may remove too much. As `destroy` gives the node back to the pool, the reference is
dropped to whatever it has become by then. If it is free still, nothing happens. If it has been made
again, its counter is that of the new node: this one is destroyed in its turn, unless it is a
directory with a child (`unlink_iff`).
-/

namespace DemoOs

namespace Vfs

open Family

/-! ## The steps -/

/-- `ref`, which adds to the counter alone. -/
def retain (s : Vfs) (i : Slot) : Vfs := s.setNode i fun n => { n with refCount := n.refCount + 1 }

/-- `unref`, which subtracts from the counter alone. -/
def release (s : Vfs) (i : Slot) : Option Vfs :=
  doUnref maxDepth (s.setNode i fun n => { n with refCount := n.refCount - 1 }) none false i

/-- `VFSDir::addChild`. -/
def attach (s : Vfs) (dir child : Slot) : Vfs :=
  let s := s.retain dir
  s.addTail (s.childHdr dir child) child

/-- The `init` that is run where that of the class of this type is called. The fields that
    `createFile` and `createdev` set afterwards are set at once. -/
def initAs (s : Vfs) (i : Slot) (t : VfsNodeType) (pid : UInt16) (dir : Slot) (name : CStr)
    (needReleased : Bool) : Vfs :=
  let t := s.initType t
  let s := s.setNodeType i t
  let s := if t = .Directory then (s.setList (.dirs i) []).setList (.files i) [] else s
  let s := s.setNode i fun n =>
    { n with
      name := some name
      nameLen := CStr.strlen name.1
      ower := pid
      refCount := 1
      needReleased := needReleased
      dev := t = .Device
      parent := some dir }
  s.attach dir i

/-- A node that has been made, and where, and as what. -/
structure NewNode where
  slot : Slot
  dir : Slot
  nodeType : VfsNodeType
  name : CStr

/-- What `unlink` does next: look the node up, destroy it, drop the reference, or nothing. -/
inductive UnlinkPc
  | called
  | referenced (n : Slot)
  | destroyed (n : Slot)
  | returned
  deriving DecidableEq

/-- The tree while `unlink` is called, the nodes made by other threads, and how often the node has
    been put on the free list. -/
structure Unlinking where
  vfs : Vfs
  pc : UnlinkPc
  made : List NewNode
  freed : ℕ

/-- The atomic steps: those of `unlink`, and the making of a node. -/
inductive UnlinkStep
  | lookup
  | destroy
  | unref
  | create (dir : Slot) (t : VfsNodeType) (pid : UInt16) (name : CStr) (needReleased : Bool)

/-- How often more the node is on the free list. -/
def putBack (s s' : Vfs) (n : Slot) : ℕ := (s'.lists .free).count n - (s.lists .free).count n

namespace Unlinking

variable (this : Slot) (pid : UInt16) (name : CStr)

/-- A step; none if it does not return. -/
def step (st : Unlinking) : UnlinkStep → Option Unlinking
  | .lookup =>
    if (st.vfs.nodes this).nodeType ≠ .Directory then some { st with pc := .returned }
    else do
      match ← st.vfs.findFileInDir this name.1 (CStr.strlen name.1) with
      | none => some { st with pc := .returned }
      | some n =>
        if (st.vfs.nodes n).canRemove pid then
          some { st with vfs := st.vfs.retain n, pc := .referenced n }
        else some { st with pc := .returned }
  | .destroy =>
    match st.pc with
    | .referenced n => (st.vfs.destroy n).map fun s =>
      { st with vfs := s, pc := .destroyed n, freed := st.freed + putBack st.vfs s n }
    | _ => none
  | .unref =>
    match st.pc with
    | .destroyed n => (st.vfs.release n).map fun s =>
      { st with vfs := s, pc := .returned, freed := st.freed + putBack st.vfs s n }
    | _ => none
  | .create dir t pid name needReleased =>
    match st.vfs.createObjNode fun s i => s.initAs i t pid dir name needReleased with
    | (s, none) => some { st with vfs := s }
    | (s, some i) =>
        some { st with vfs := s, made := st.made ++ [⟨i, dir, st.vfs.initType t, name⟩] }

/-- The steps that may be taken: `unlink` takes its own in turn, and nodes are made in
    directories. -/
def Legal (st : Unlinking) : UnlinkStep → Prop
  | .lookup => st.pc = .called
  | .destroy => ∃ n, st.pc = .referenced n
  | .unref => ∃ n, st.pc = .destroyed n
  | .create dir t _ _ _ => AsDirectory st.vfs dir ∧ t ≠ .Invalid

instance (st : Unlinking) : ∀ op, Decidable (st.Legal op)
  | .lookup => inferInstanceAs (Decidable (_ = _))
  | .destroy | .unref => inferInstanceAs (Decidable (∃ _, _))
  | .create .. => inferInstanceAs (Decidable (_ ∧ _))

end Unlinking

/-! ## What they should do -/

variable {s s' s₀ : Vfs} {this dir d i j A : Slot} {t : VfsNodeType} {pid pid' : UInt16}
    {name nm : CStr}
  {h : NodeHdr} {needReleased : Bool} {st st' : Unlinking} {c : NewNode}

/-- A node is where it was, and nothing of it has changed but its counter. -/
def Untouched (s s' : Vfs) (j : Slot) : Prop :=
  (∀ h, j ∈ s'.lists h ↔ j ∈ s.lists h) ∧ ∃ r, s'.nodes j = { s.nodes j with refCount := r }

/-- A new node is linked into its directory, alive, and not free. -/
structure Alive (s : Vfs) (c : NewNode) : Prop where
  linked : c.slot ∈ s.lists (.ofType c.nodeType c.dir)
  live : (s.nodes c.dir).nodeType = .Directory
  nodeType : (s.nodes c.slot).nodeType = c.nodeType
  hasName : (s.nodes c.slot).HasName c.name
  parent : (s.nodes c.slot).parent = some c.dir
  not_free : c.slot ∉ s.lists .free

/-- The node `A` and nothing else has been removed from `s`, and it has been put on the free list
    once. -/
structure Released (s : Vfs) (A : Slot) (st : Unlinking) : Prop where
  made : ∀ c ∈ st.made, Alive st.vfs c
  kept : ∀ j ≠ A, j ∉ s.lists .free → Untouched s st.vfs j
  removed : A ∈ st.vfs.lists .free ∨ ∃ c ∈ st.made, c.slot = A
  freed : st.freed = 1

/-- The node is free still, or it has become a directory with a child. -/
def Spared (s : Vfs) (A : Slot) : Prop := A ∈ s.lists .free ∨ s.children A ≠ []

instance (s : Vfs) (A : Slot) : Decidable (Spared s A) := inferInstanceAs (Decidable (_ ∨ _))

/-! ## Counters -/

/-- The state, whatever the counters and the owners are. -/
def uncounted (s : Vfs) : Vfs :=
  { s with nodes := fun i => { s.nodes i with refCount := 1, ower := 0 } }

@[simp] theorem uncounted_lists : s.uncounted.lists = s.lists := rfl

theorem uncounted_nodes : s.uncounted.nodes i = { s.nodes i with refCount := 1, ower := 0 } := rfl

theorem uncounted_setNode {f : VfsNode → VfsNode}
    (hf : { f (s.nodes i) with refCount := 1, ower := 0 } =
      { s.nodes i with refCount := 1, ower := 0 }) : (s.setNode i f).uncounted = s.uncounted := by
  have hnodes : (s.setNode i f).uncounted.nodes = s.uncounted.nodes := by
    funext j
    by_cases hj : j = i
    · subst hj
      rw [uncounted_nodes, setNode_self, hf, uncounted_nodes]
    · rw [uncounted_nodes, setNode_of_ne hj, uncounted_nodes]
  exact congrArg (fun nodes => ({ s with nodes } : Vfs)) hnodes

/-- What is reached does not depend on the counters. -/
theorem Reachable.uncounted (hi : Reachable s i) : Reachable s.uncounted i := by
  induction hi with
  | root => exact .root
  | child _ hd hh hi ih => exact ih.child hd hh hi

/-- Nor does being a tree. -/
theorem Tree.uncounted (hs : Tree s) : Tree s.uncounted where
  apart := hs.apart
  childless := hs.childless
  blank := hs.blank
  named := hs.named
  ownInit := hs.ownInit
  root_type := hs.root_type
  root_not_mem := hs.root_not_mem
  covered := hs.covered
  table := hs.table
  dir_type := hs.dir_type
  parent := hs.parent
  hdr_eq := hs.hdr_eq
  refCount _ := rfl
  reachable i hi := (hs.reachable i hi).uncounted
  count := hs.count

/-- Nor what is given back. -/
theorem Freed.uncounted (hf : Freed s s' i) : Freed s.uncounted s'.uncounted i where
  lists := hf.lists
  count := hf.count
  table := hf.table
  ownInit := hf.ownInit
  nodeType := hf.nodeType
  other_eq j hj := by
    obtain ⟨r, hr, -⟩ := hf.other_eq j hj
    refine ⟨1, ?_, fun _ => rfl⟩
    simp only [Vfs.uncounted, hr]

/-! ## Making nodes -/

/-- A free node `i` has become a node of this type and name in the directory, which counts it. -/
structure Made (s s' : Vfs) (dir i : Slot) (t : VfsNodeType) (name : CStr) : Prop where
  free : i ∈ s.lists .free
  dir_not_free : dir ∉ s.lists .free
  lists : s'.lists = move s.lists i (.ofType t dir)
  count : s'.allocatedCount = word (s.allocatedCount + 1)
  table : s'.fsDescTable = Function.update s.fsDescTable i (some i)
  ownInit : s'.ownInit = s.ownInit
  isNew : (s'.nodes i).IsNew t dir name (decide (t = .Device))
  dir_eq : s'.nodes dir = { s.nodes dir with refCount := (s.nodes dir).refCount + 1 }
  other_eq : ∀ j, j ≠ i → j ≠ dir → s'.nodes j = s.nodes j

/-- Without the counters this is the making of a node as it is. -/
theorem Made.created (hm : Made s s' dir i t name) :
    Created s.uncounted (s'.uncounted.setNode dir fun _ => (s.uncounted.nodes dir).addRefCount 1)
      dir i t name := by
  have hne : i ≠ dir := fun h => hm.dir_not_free (h ▸ hm.free)
  refine ⟨hm.free, hm.dir_not_free, hm.lists, hm.count, hm.table, hm.ownInit, ?_, setNode_self,
    fun j hj hjd => ?_⟩
  · rw [setNode_of_ne hne]
    exact { hm.isNew with refCount := rfl }
  · rw [setNode_of_ne hjd, uncounted_nodes, hm.other_eq j hj hjd, uncounted_nodes]

/-- A tree has a leaf more. -/
theorem Made.tree (hs : Tree s.uncounted) (hm : Made s s' dir i t name)
    (hdir : (s.nodes dir).nodeType = .Directory) : Tree s'.uncounted := by
  have htree := (hs.created hm.created hdir).uncounted
  have hself : s'.uncounted.uncounted = s'.uncounted := rfl
  rwa [uncounted_setNode (by rw [uncounted_nodes, uncounted_nodes, hm.dir_eq]; rfl), hself] at htree

/-- The other nodes are left alone. -/
theorem Made.untouched (hs : Tree s.uncounted) (hm : Made s s' dir i t name) (hne : j ≠ i) :
    Untouched s s' j := by
  have hapart : Apart s.lists := hs.apart
  refine ⟨fun h => by rw [hm.lists, hapart.mem_move_of_ne hne], ?_⟩
  by_cases hj : j = dir
  · subst hj
    exact ⟨_, hm.dir_eq⟩
  · exact ⟨_, hm.other_eq j hne hj⟩

/-- The new node is there. -/
theorem Made.alive (hs : Tree s.uncounted) (hm : Made s s' dir i t name)
    (hdir : (s.nodes dir).nodeType = .Directory) : Alive s' ⟨i, dir, t, name⟩ := by
  have hapart : Apart s.lists := hs.apart
  refine ⟨?_, by rw [hm.dir_eq, hdir], hm.isNew.nodeType, hm.isNew.hasName, hm.isNew.parent, ?_⟩
  · rw [hm.lists, hapart.mem_move]
    exact .inl ⟨rfl, rfl⟩
  · rw [hm.lists, hapart.mem_move]
    simp [(NodeHdr.ofType_ne_free t dir).symm]

/-- There is nothing to clear in a node without children. -/
theorem initAs_eq (hown : s.ownInit = true) (hdirs : s.lists (.dirs i) = [])
    (hfiles : s.lists (.files i) = []) :
    s.initAs i t pid dir name needReleased =
      ((s.setNodeType i t).setNode i fun n =>
        { n with
          name := some name
          nameLen := CStr.strlen name.1
          ower := pid
          refCount := 1
          needReleased := needReleased
          dev := t = .Device
          parent := some dir }).attach dir i := by
  have hclear :
      (if t = .Directory then ((s.setNodeType i t).setList (.dirs i) []).setList (.files i) []
      else s.setNodeType i t) = s.setNodeType i t := by
    rw [setList_eq_self (s := s.setNodeType i t) hdirs,
      setList_eq_self (s := s.setNodeType i t) hfiles]
    exact ite_self _
  simp only [initAs, initType_of_ownInit hown, hclear]

/-- A node is made of the first free one. -/
theorem exists_made (t : VfsNodeType) (pid : UInt16) (name : CStr) (needReleased : Bool)
    (hs : Tree s.uncounted) (hdir : (s.nodes dir).nodeType = .Directory) :
    (s.lists .free = [] ∧
      s.createObjNode (fun s i => s.initAs i t pid dir name needReleased) = (s, none)) ∨
    ∃ i s', s.createObjNode (fun s i => s.initAs i t pid dir name needReleased) = (s', some i) ∧
      Made s s' dir i t name := by
  have hdir' : dir ∉ s.lists .free := hs.not_free hdir
  have hapart : Apart s.lists := hs.apart
  unfold createObjNode allocate
  cases hfree : s.lists .free with
  | nil => exact .inl ⟨rfl, rfl⟩
  | cons i l =>
    have hi : i ∈ s.lists .free := by simp [hfree]
    have hne : i ≠ dir := fun h => hdir' (h ▸ hi)
    have hempty (h : NodeHdr) (hh : h.dir = some i) : s.lists h = [] :=
      hs.childless hs.ownInit i hi h hh
    have hne' : dir ≠ i := hne.symm
    have hlist := NodeHdr.ofType_ne_free t dir
    refine .inr ⟨i, _, rfl, ?_⟩
    simp only
    have hown : s.ownInit = true := hs.ownInit
    rw [initAs_eq (by exact hown) (by simp [setList, hempty (.dirs i) rfl])
      (by simp [setList, hempty (.files i) rfl])]
    refine ⟨hi, hdir', ?_, rfl, rfl, rfl, ⟨?_, ⟨?_, ?_⟩, ?_, ?_, ?_⟩, ?_, fun j hj hjd => ?_⟩
    · rw [hapart.move_of_cons hfree hlist.symm]
      simp only [attach, retain, addTail, setList, childHdr, setNode_lists, setNode_of_ne hne,
        setNodeType, setNode_self]
      rw [← NodeHdr.ofType, Function.update_of_ne hlist]
    all_goals simp [attach, retain, addTail, setList, CStr.strlen, setNode, setNodeType, *]

/-! ## What the steps leave -/

/-- Nothing has happened. -/
theorem Untouched.refl : Untouched s s j := ⟨fun _ => .rfl, _, rfl⟩

/-- One after the other. -/
theorem Untouched.trans (h : Untouched s₀ s j) (h' : Untouched s s' j) : Untouched s₀ s' j := by
  obtain ⟨r, hr⟩ := h.2
  obtain ⟨r', hr'⟩ := h'.2
  exact ⟨fun k => (h'.1 k).trans (h.1 k), r', by rw [hr', hr]⟩

/-- Another node changes, or the counter. -/
theorem Untouched.of_setNode {f : VfsNode → VfsNode}
    (hf : ∃ r, f (s.nodes i) = { s.nodes i with refCount := r }) :
    Untouched s (s.setNode i f) j := by
  refine ⟨fun _ => .rfl, ?_⟩
  by_cases hj : j = i
  · subst hj
    rwa [setNode_self]
  · exact ⟨_, setNode_of_ne hj⟩

/-- The other nodes are left alone. -/
theorem Freed.untouched (hs : Tree s.uncounted) (hf : Freed s s' i) (hne : j ≠ i) :
    Untouched s s' j := by
  have hapart : Apart s.lists := hs.apart
  obtain ⟨r, hr, -⟩ := hf.other_eq j hne
  exact ⟨fun h => by rw [hf.lists, hapart.mem_move_of_ne hne], r, hr⟩

/-- A node that is left alone is there still. -/
theorem Alive.untouched (ha : Alive s c) (hs' : Tree s'.uncounted) (hu : Untouched s s' c.slot) :
    Alive s' c := by
  have hlinked := (hu.1 _).2 ha.linked
  obtain ⟨r, hr⟩ := hu.2
  refine ⟨hlinked, hs'.dir_type (NodeHdr.dir_ofType _ _) hlinked, ?_, ?_, ?_, fun hfree =>
    ha.not_free ((hu.1 _).1 hfree)⟩
  · rw [hr, ← ha.nodeType]
  · rw [hr]
    exact ha.hasName
  · rw [hr, ← ha.parent]

/-- A file that is found is found when there is another one. -/
theorem Made.fileNamed (hs : Tree s.uncounted) (hm : Made s s' dir i t name)
    (hfind : s.fileNamed this nm.1 (CStr.strlen nm.1) = some A) :
    s'.fileNamed this nm.1 (CStr.strlen nm.1) = some A := by
  have hapart : Apart s.lists := hs.apart
  have hi : i ∉ s.lists (.files this) := fun hi => nomatch hapart.unique hi hm.free
  have hlen := (findIn_eq_some hfind).1
  rw [Vfs.fileNamed, findIn, if_neg hlen, List.find?_eq_some_iff_append] at hfind ⊢
  obtain ⟨hA, as, bs, hl, has⟩ := hfind
  have hnamed : ∀ j ∈ s.lists (.files this), (s'.nodes j).isNamed nm.1 (CStr.strlen nm.1) =
      (s.nodes j).isNamed nm.1 (CStr.strlen nm.1) := by
    intro j hj
    obtain ⟨r, hr⟩ := (hm.untouched hs (j := j) fun hji => hi (hji ▸ hj)).2
    rw [hr]
    rfl
  refine ⟨by rwa [hnamed A (by simp [hl])], as, ?_⟩
  have hfirst : ∀ a ∈ as, (!(s'.nodes a).isNamed nm.1 (CStr.strlen nm.1)) = true := fun a ha => by
    rw [hnamed a (by simp [hl, ha])]
    exact has a ha
  -- The new node is the last one, if it goes into this list.
  by_cases hh : .files this = NodeHdr.ofType t dir
  · refine ⟨bs ++ [i], ?_, hfirst⟩
    rw [hm.lists, hh, move_self, ← hh, List.erase_of_not_mem hi, hl]
    simp
  · exact ⟨bs, by rw [hm.lists, move_of_ne hh, List.erase_of_not_mem hi, hl], hfirst⟩

/-- The other lists are as they were. -/
theorem Made.lists_of_ne (hs : Tree s.uncounted) (hm : Made s s' dir i t name) (hh : h ≠ .free)
    (hne : h ≠ .ofType t dir) : s'.lists h = s.lists h := by
  have hapart : Apart s.lists := hs.apart
  rw [hm.lists, move_of_ne hne, List.erase_of_not_mem fun hi => hh (hapart.unique hi hm.free)]

/-- So are the children of the other directories. -/
theorem Made.children_of_ne (hs : Tree s.uncounted) (hm : Made s s' dir i t name) (hne : d ≠ dir) :
    s'.children d = s.children d := by
  have hdir {h : NodeHdr} (hh : h.dir = some d) : h ≠ .ofType t dir := by
    rintro rfl
    rw [NodeHdr.dir_ofType, Option.some_inj] at hh
    exact hne hh.symm
  rw [children, children, hm.lists_of_ne hs (h := .dirs d) (by simp) (hdir rfl),
    hm.lists_of_ne hs (h := .files d) (by simp) (hdir rfl)]

/-- The new node is one child more of its directory. -/
theorem Made.length_children (hs : Tree s.uncounted) (hm : Made s s' dir i t name) :
    (s'.children dir).length = (s.children dir).length + 1 := by
  have hapart : Apart s.lists := hs.apart
  have hdirs : i ∉ s.lists (.dirs dir) := fun hi => nomatch hapart.unique hi hm.free
  have hfiles : i ∉ s.lists (.files dir) := fun hi => nomatch hapart.unique hi hm.free
  rw [children, children, hm.lists]
  by_cases ht : t = .Directory
  · simp [NodeHdr.ofType, ht, move, List.erase_of_not_mem, hdirs, hfiles]
    omega
  · simp [NodeHdr.ofType, ht, move, List.erase_of_not_mem, hdirs, hfiles]
    omega

/-! ## Dropping the reference -/

/-- A node that is not given back. -/
theorem release_of_ne (hne : (s.nodes i).refCount ≠ 1) :
    s.release i = some (s.setNode i fun n => { n with refCount := n.refCount - 1 }) := by
  have hcount : (s.nodes i).refCount - 1 ≠ 0 := fun h =>
    hne (by rw [← UInt16.sub_add_cancel (s.nodes i).refCount 1, h, UInt16.zero_add])
  rw [release, maxDepth, doUnref]
  simp [hcount]

/-- A node without directories in it is given back with the last reference. -/
theorem exists_release (hi : i ∈ s.lists h) (hne : d ≠ i) (hparent : (s.nodes i).parent = some d)
    (hdirs : s.lists (.dirs i) = [])
    (hcount : (s.nodes i).refCount = 1) : ∃ s', s.release i = some s' ∧ Freed s s' i := by
  let s₁ := s.setNode i fun n => { n with refCount := n.refCount - 1 }
  have hs₁ : s₁.nodes i = { s.nodes i with refCount := 0 } := by simp [s₁, hcount]
  have hheld : (none : Option Slot) ≠ some d := nofun
  obtain ⟨s₂, hdetach, hdet⟩ := exists_detach (s := s₁) (i := i) (hs₁ ▸ hparent) hne hheld hi
  have hdetach' : s₁.detach none false i = some s₂ := by
    rw [← hdetach, detach, detach]
    simp [hs₁]
  refine ⟨s₂.destroyObjNode i, ?_, hdet.freed hparent rfl rfl rfl rfl fun j hj => setNode_of_ne hj⟩
  have hunref : s.release i = (s₁.detach none false i).bind fun s => some (s.destroyObjNode i) := by
    rw [release, maxDepth, doUnref]
    simp [s₁, hcount, hdirs]
  rw [hunref, hdetach', Option.bind_some]

/-- One node is given back. -/
theorem Freed.putBack (hf : Freed s s' i) (hi : i ∉ s.lists .free) : putBack s s' i = 1 := by
  rw [Vfs.putBack, hf.lists, move_self, List.erase_of_not_mem hi, List.count_append]
  simp

/-! ## The invariant -/

/-- The slot of the node is free still, or it has been made again, and then its counter tells its
    children. -/
def Reused (st : Unlinking) (A : Slot) : Prop :=
  (A ∈ st.vfs.lists .free ∧ (st.vfs.nodes A).refCount = 0) ∨
    ((∃ c ∈ st.made, c.slot = A) ∧
      (st.vfs.nodes A).refCount.toNat = 1 + (st.vfs.children A).length)

/-- Where the node is, when `unlink` is at this step. -/
def Phase (this : Slot) (pid : UInt16) (name : CStr) (A : Slot) (st : Unlinking) : Prop :=
  match st.pc with
  | .called =>
    st.vfs.fileNamed this name.1 (CStr.strlen name.1) = some A ∧
      (st.vfs.nodes A).canRemove pid ∧ (∀ c ∈ st.made, c.slot ≠ A) ∧ st.freed = 0
  | .referenced n =>
    n = A ∧ A ∈ st.vfs.lists (.files this) ∧ (∀ c ∈ st.made, c.slot ≠ A) ∧ st.freed = 0
  | .destroyed n => n = A ∧ Reused st A ∧ st.freed = 1
  | .returned => (A ∈ st.vfs.lists .free ∨ ∃ c ∈ st.made, c.slot = A) ∧ st.freed = 1

/-- The other nodes are as they should be, and the node is where it is expected. -/
structure UnlinkInv (s : Vfs) (this : Slot) (pid : UInt16) (name : CStr) (A : Slot)
    (st : Unlinking) :
    Prop where
  tree : Tree st.vfs.uncounted
  made : ∀ c ∈ st.made, Alive st.vfs c
  kept : ∀ j ≠ A, j ∉ s.lists .free → Untouched s st.vfs j
  phase : Phase this pid name A st

/-- A state in which nothing but the node has been touched. -/
theorem UnlinkInv.of_untouched (hI : UnlinkInv s this pid name A st) (htree : Tree s'.uncounted)
    (hmade : ∀ c ∈ st.made, c.slot = A → Untouched st.vfs s' A)
    (hother : ∀ j ≠ A, Untouched st.vfs s' j) {pc : UnlinkPc} {freed : ℕ}
    (hphase : Phase this pid name A ⟨s', pc, st.made, freed⟩) :
    UnlinkInv s this pid name A ⟨s', pc, st.made, freed⟩ where
  tree := htree
  made c hc := (hI.made c hc).untouched htree <| by
    by_cases hcA : c.slot = A
    · rw [hcA]
      exact hmade c hc hcA
    · exact hother _ hcA
  kept j hj hfree := (hI.kept j hj hfree).trans (hother j hj)
  phase := hphase

/-- First step: the node is found, and has a reference more. -/
theorem UnlinkInv.lookup (hI : UnlinkInv s this pid name A st) (hpc : st.pc = .called) :
    ∃ st', st.step this pid name .lookup = some st' ∧ st'.pc = .referenced A ∧
      UnlinkInv s this pid name A st' := by
  have hp := hI.phase
  rw [Phase, hpc] at hp
  obtain ⟨hfind, hcan, hfresh, hfreed⟩ := hp
  have hsame (j : Slot) : Untouched st.vfs (st.vfs.retain A) j := .of_setNode ⟨_, rfl⟩
  have hdir : (st.vfs.nodes this).nodeType = .Directory :=
    hI.tree.dir_type (h := .files this) rfl (findIn_eq_some hfind).2.1
  have hsearch : st.vfs.findFileInDir this name.1 (CStr.strlen name.1) = some (some A) :=
    hfind ▸ hI.tree.findFileInDir_eq hdir
  refine ⟨{ st with vfs := st.vfs.retain A, pc := .referenced A }, ?_, rfl, ?_⟩
  · simp only [Unlinking.step, hdir, hsearch, hcan, ne_eq, not_true_eq_false, if_false, if_true,
      Option.bind_eq_bind, Option.bind_some]
  refine hI.of_untouched ?_ (fun _ _ _ => hsame A) (fun j _ => hsame j) ⟨rfl, ?_, hfresh, hfreed⟩
  · rw [retain, uncounted_setNode rfl]
    exact hI.tree
  · exact (findIn_eq_some hfind).2.1

/-- Second step: the node is given back to the pool. -/
theorem UnlinkInv.destroy (hI : UnlinkInv s this pid name A st) {n : Slot}
    (hpc : st.pc = .referenced n) :
    ∃ st', st.step this pid name .destroy = some st' ∧ st'.pc = .destroyed A ∧
      UnlinkInv s this pid name A st' := by
  have hp := hI.phase
  rw [Phase, hpc] at hp
  obtain ⟨rfl, hn, hfresh, hfreed⟩ := hp
  have hs := hI.tree
  have hfree : n ∉ st.vfs.uncounted.lists .free := hs.ne_free (h := .files this) rfl hn
  have hroot : n ≠ rootNode := fun hroot => hs.root_not_mem (.files this) (hroot ▸ hn)
  have hleaf : Leaf st.vfs.uncounted n := hs.leaf hn
  obtain ⟨s', hdestroy, hf, hcount, -⟩ := exists_destroy (s := st.vfs) hn
    (hs.ne_of_mem (h := .files this) rfl hn) (hs.parent (h := .files this) rfl hn) fun _ => hleaf.1
  have hnow : n ∈ s'.lists .free := by
    rw [hf.lists, move_self]
    exact List.mem_append_right _ (List.mem_singleton_self n)
  refine ⟨_, by simp only [Unlinking.step, hpc, hdestroy]; rfl, rfl, ?_⟩
  refine hI.of_untouched (hs.freed hf.uncounted hroot hfree hleaf)
    (fun c hc hcn => absurd hcn (hfresh c hc)) (fun j hj => hf.untouched hs hj)
    ⟨rfl, .inl ⟨hnow, hcount⟩, ?_⟩
  rw [hfreed, hf.putBack hfree]

/-- The reference is dropped, and nothing else happens. -/
theorem UnlinkInv.unref_of_ne (hI : UnlinkInv s this pid name A st) (hpc : st.pc = .destroyed A)
    (hne : (st.vfs.nodes A).refCount ≠ 1) :
    ∃ st', st.step this pid name .unref = some st' ∧ st'.pc = .returned ∧
      UnlinkInv s this pid name A st' := by
  have hp := hI.phase
  rw [Phase, hpc] at hp
  obtain ⟨-, hreused, hfreed⟩ := hp
  have hsame (j : Slot) :
      Untouched st.vfs (st.vfs.setNode A fun n => { n with refCount := n.refCount - 1 }) j :=
    .of_setNode ⟨_, rfl⟩
  refine ⟨_, by simp only [Unlinking.step, hpc, release_of_ne hne]; rfl, rfl, ?_⟩
  refine hI.of_untouched ?_ (fun _ _ _ => hsame A) (fun j _ => hsame j)
    ⟨hreused.imp And.left And.left, ?_⟩
  · rw [uncounted_setNode rfl]
    exact hI.tree
  · simp [putBack, hfreed]

/-- The node has been made again, and it is destroyed again. -/
theorem UnlinkInv.unref_of_eq (hI : UnlinkInv s this pid name A st) (hpc : st.pc = .destroyed A)
    (hc : c ∈ st.made) (hcA : c.slot = A) (hleaf : st.vfs.children A = [])
    (hcount : (st.vfs.nodes A).refCount = 1) :
    ∃ st', st.step this pid name .unref = some st' ∧ st'.pc = .returned ∧ st'.freed = 2 := by
  have hp := hI.phase
  rw [Phase, hpc] at hp
  obtain ⟨-, -, hfreed⟩ := hp
  have hs := hI.tree
  have ha := hI.made c hc
  subst hcA
  obtain ⟨s', hrelease, hf⟩ := exists_release ha.linked
    (hs.ne_of_mem (NodeHdr.dir_ofType _ _) ha.linked) ha.parent
      (List.append_eq_nil_iff.1 hleaf).1 hcount
  refine ⟨_, by simp only [Unlinking.step, hpc, hrelease]; rfl, rfl, ?_⟩
  simp only [hfreed, hf.putBack ha.not_free]

/-- The reference is dropped, and the node is spared or destroyed again. -/
theorem UnlinkInv.unref (hI : UnlinkInv s this pid name A st) (hpc : st.pc = .destroyed A) :
    ∃ st', st.step this pid name .unref = some st' ∧ st'.pc = .returned ∧
      (Spared st.vfs A ∧ UnlinkInv s this pid name A st' ∨ ¬Spared st.vfs A ∧ st'.freed = 2) := by
  have hp := hI.phase
  rw [Phase, hpc] at hp
  obtain ⟨-, ⟨hfree, hzero⟩ | ⟨⟨c, hc, hcA⟩, hcount⟩, -⟩ := hp
  · obtain ⟨st', hstep, hpc', hI'⟩ := hI.unref_of_ne hpc (by rw [hzero]; decide)
    exact ⟨st', hstep, hpc', .inl ⟨.inl hfree, hI'⟩⟩
  · by_cases hleaf : st.vfs.children A = []
    · have hone : (st.vfs.nodes A).refCount = 1 := by
        rw [← UInt16.toNat_inj, hcount, hleaf]
        rfl
      obtain ⟨st', hstep, hpc', hfreed⟩ := hI.unref_of_eq hpc hc hcA hleaf hone
      refine ⟨st', hstep, hpc', .inr ⟨?_, hfreed⟩⟩
      rintro (hfree | hne)
      · exact (hI.made c hc).not_free (hcA ▸ hfree)
      · exact hne hleaf
    · have hne : (st.vfs.nodes A).refCount ≠ 1 := by
        intro hone
        rw [hone, UInt16.toNat_one] at hcount
        exact hleaf (List.length_eq_zero_iff.1 (by omega))
      obtain ⟨st', hstep, hpc', hI'⟩ := hI.unref_of_ne hpc hne
      exact ⟨st', hstep, hpc', .inl ⟨.inr hleaf, hI'⟩⟩

/-- The counter of a node that has been made again goes with its children. -/
theorem Reused.made (hI : UnlinkInv s this pid name A st) (hr : Reused st A)
    (hm : Made st.vfs s' dir i t nm) {pc : UnlinkPc} {freed : ℕ} :
    Reused ⟨s', pc, st.made ++ [⟨i, dir, t, nm⟩], freed⟩ A := by
  have hs := hI.tree
  have hne : i ≠ dir := fun h => hm.dir_not_free (h ▸ hm.free)
  rcases hr with ⟨hfree, hzero⟩ | ⟨⟨c, hc, hcA⟩, hcount⟩
  · by_cases hiA : i = A
    · refine .inr ⟨⟨_, List.mem_append_right _ (List.mem_singleton_self _), hiA⟩, ?_⟩
      have hchildren : st.vfs.children i = [] := List.append_eq_nil_iff.2
        ⟨hs.childless hs.ownInit i hm.free (.dirs i) rfl,
          hs.childless hs.ownInit i hm.free (.files i) rfl⟩
      simp only [← hiA, hm.isNew.refCount, hm.children_of_ne hs hne, hchildren]
      rfl
    · refine .inl ⟨((hm.untouched hs (Ne.symm hiA)).1 _).2 hfree, ?_⟩
      simp only
      rw [hm.other_eq A (Ne.symm hiA) fun h => hm.dir_not_free (h ▸ hfree), hzero]
  · have hiA : A ≠ i := fun h => (hI.made c hc).not_free (hcA ▸ h ▸ hm.free)
    refine .inr ⟨⟨c, List.mem_append_left _ hc, hcA⟩, ?_⟩
    simp only
    by_cases hdir : A = dir
    · subst hdir
      have hnodup : (st.vfs.children A).Nodup := hs.nodup_children A
      have hle : (st.vfs.children A).length ≤ 200 := by simpa using hnodup.length_le_card
      rw [hm.length_children hs, hm.dir_eq, UInt16.toNat_add, hcount, UInt16.toNat_one]
      omega
    · rw [hm.children_of_ne hs hdir, hm.other_eq A hiA hdir, hcount]

/-- The node is found, and is where it was, when another one is made. -/
theorem Phase.made (hI : UnlinkInv s this pid name A st) (hm : Made st.vfs s' dir i t nm) :
    Phase this pid name A ⟨s', st.pc, st.made ++ [⟨i, dir, t, nm⟩], st.freed⟩ := by
  have hs := hI.tree
  have hapart : Apart st.vfs.lists := hs.apart
  have hne (hA : A ∈ st.vfs.lists (.files this)) : A ≠ i := by
    rintro rfl
    exact nomatch hapart.unique hA hm.free
  -- While `A` is linked its slot is not free, so a new node is another one.
  have hfresh (hA : A ∈ st.vfs.lists (.files this)) (h : ∀ c ∈ st.made, c.slot ≠ A) :
      ∀ c ∈ st.made ++ [⟨i, dir, t, nm⟩], c.slot ≠ A := by
    intro c hc
    rcases List.mem_append.1 hc with hc | hc
    · exact h c hc
    · rw [List.mem_singleton.1 hc]
      exact (hne hA).symm
  have hp := hI.phase
  rw [Phase] at hp ⊢
  simp only
  cases hpc : st.pc with
  | called =>
    rw [hpc] at hp
    obtain ⟨hfind, hcan, hnew, hfreed⟩ := hp
    have hA := (findIn_eq_some hfind).2.1
    obtain ⟨r, hr⟩ := (hm.untouched hs (hne hA)).2
    exact ⟨hm.fileNamed hs hfind, by rw [hr]; exact hcan, hfresh hA hnew, hfreed⟩
  | referenced n =>
    rw [hpc] at hp
    obtain ⟨hn, hA, hnew, hfreed⟩ := hp
    exact ⟨hn, ((hm.untouched hs (hne hA)).1 _).2 hA, hfresh hA hnew, hfreed⟩
  | destroyed n =>
    rw [hpc] at hp
    exact ⟨hp.1, hp.2.1.made hI hm, hp.2.2⟩
  | returned =>
    rw [hpc] at hp
    refine ⟨?_, hp.2⟩
    -- Once `A` is released, its slot may be the one that is taken.
    by_cases hiA : A = i
    · exact .inr ⟨_, List.mem_append_right _ (List.mem_singleton_self _), hiA.symm⟩
    · refine hp.1.imp ((hm.untouched hs hiA).1 _).2 fun ⟨c, hc, hcA⟩ => ?_
      exact ⟨c, List.mem_append_left _ hc, hcA⟩

/-- In between, another thread makes a node. -/
theorem UnlinkInv.create (hI : UnlinkInv s this pid name A st)
    (hok : st.Legal (.create dir t pid' nm needReleased))
    (hstep : st.step this pid name (.create dir t pid' nm needReleased) = some st') :
    UnlinkInv s this pid name A st' := by
  rw [Unlinking.step] at hstep
  have hdir := hok.1.2 hI.tree.ownInit
  rcases exists_made t pid' nm needReleased hI.tree hdir with ⟨-, h⟩ | ⟨i, s', h, hm⟩
  · rw [h] at hstep
    obtain rfl := Option.some.inj hstep
    exact hI
  · rw [h] at hstep
    obtain rfl := Option.some.inj hstep
    have hown : st.vfs.ownInit = true := hI.tree.ownInit
    rw [initType_of_ownInit hown]
    have htree := hm.tree hI.tree hdir
    refine ⟨htree, fun c hc => ?_, fun j hj hfree => ?_, Phase.made hI hm⟩
    · rcases List.mem_append.1 hc with hc | hc
      · have ha := hI.made c hc
        exact ha.untouched htree (hm.untouched hI.tree fun h => ha.not_free (h ▸ hm.free))
      · rw [List.mem_singleton.1 hc]
        exact hm.alive hI.tree hdir
    · have hkept := hI.kept j hj hfree
      exact hkept.trans (hm.untouched hI.tree fun h => hfree ((hkept.1 _).1 (h ▸ hm.free)))

/-- It is the node that was found which has been destroyed. -/
theorem UnlinkInv.pc_eq (hI : UnlinkInv s this pid name A st) {n : Slot}
    (hpc : st.pc = .destroyed n) :
    st.pc = .destroyed A := by
  have hp := hI.phase
  rw [Phase, hpc] at hp
  rw [hpc, hp.1]

/-- It is released when the call returns, if nothing else is. -/
theorem UnlinkInv.released (hI : UnlinkInv s this pid name A st) (hpc : st.pc = .returned) :
    Released s A st := by
  have hp := hI.phase
  rw [Phase, hpc] at hp
  exact ⟨hI.made, hI.kept, hp.1, hp.2⟩

/-- Before the call. -/
theorem unlinkInv_init (hs : Tree s) (hfind : s.fileNamed this name.1 (CStr.strlen name.1) = some A)
    (hcan : (s.nodes A).canRemove pid) : UnlinkInv s this pid name A ⟨s, .called, [], 0⟩ where
  tree := hs.uncounted
  made := nofun
  kept _ _ _ := .refl
  phase := ⟨hfind, hcan, nofun, rfl⟩

/-! ## Runs -/

/-- The runs of one call of `unlink`, and of the threads that make nodes. -/
abbrev UnlinkRun (this : Slot) (pid : UInt16) (name : CStr) : Unlinking → Unlinking → Prop :=
  Run (Unlinking.step this pid name) Unlinking.Legal

/-- In a run to the second state, `unlink` drops its reference in the first one. -/
def DropsIn (s : Vfs) (this : Slot) (pid : UInt16) (name : CStr) (A : Slot)
    (st₁ st : Unlinking) : Prop :=
  ∃ st₂, UnlinkRun this pid name ⟨s, .called, [], 0⟩ st₁ ∧ st₁.pc = .destroyed A ∧
    st₁.step this pid name .unref = some st₂ ∧ UnlinkRun this pid name st₂ st

/-- The call is where it was, and has released what it had. -/
theorem step_create
    (hstep : st.step this pid name (.create dir t pid' nm needReleased) = some st') :
    st'.pc = st.pc ∧ st'.freed = st.freed := by
  rw [Unlinking.step] at hstep
  split at hstep
  · exact Option.some.inj hstep ▸ ⟨rfl, rfl⟩
  · exact Option.some.inj hstep ▸ ⟨rfl, rfl⟩

/-- The call has not returned, and the invariant holds, or it has. -/
theorem cases_of_run (hs : Tree s) (hfind : s.fileNamed this name.1 (CStr.strlen name.1) = some A)
    (hcan : (s.nodes A).canRemove pid) (hrun : UnlinkRun this pid name ⟨s, .called, [], 0⟩ st) :
    (st.pc ≠ .returned ∧ UnlinkInv s this pid name A st) ∨
      (st.pc = .returned ∧ ∃ st₁, DropsIn s this pid name A st₁ st) := by
  -- By induction on the run: `unref` is the step that ends the call, all after it are of others.
  induction hrun with
  | refl => exact .inl ⟨nofun, unlinkInv_init hs hfind hcan⟩
  | @tail st st' op hrun hok hstep ih =>
    cases op with
    | lookup =>
      rcases ih with ⟨-, hI⟩ | ⟨hpc, -⟩
      · obtain ⟨st₁, hstep₁, hpc₁, hI₁⟩ := hI.lookup hok
        obtain rfl := Option.some.inj (hstep₁.symm.trans hstep)
        exact .inl ⟨by rw [hpc₁]; nofun, hI₁⟩
      · exact nomatch hpc.symm.trans hok
    | destroy =>
      obtain ⟨n, hn⟩ := hok
      rcases ih with ⟨-, hI⟩ | ⟨hpc, -⟩
      · obtain ⟨st₁, hstep₁, hpc₁, hI₁⟩ := hI.destroy hn
        obtain rfl := Option.some.inj (hstep₁.symm.trans hstep)
        exact .inl ⟨by rw [hpc₁]; nofun, hI₁⟩
      · exact nomatch hpc.symm.trans hn
    | unref =>
      obtain ⟨n, hn⟩ := hok
      rcases ih with ⟨-, hI⟩ | ⟨hpc, -⟩
      · have hn := hI.pc_eq hn
        obtain ⟨st₁, hstep₁, hpc₁, -⟩ := hI.unref hn
        obtain rfl := Option.some.inj (hstep₁.symm.trans hstep)
        exact .inr ⟨hpc₁, st, _, hrun, hn, hstep, .refl⟩
      · exact nomatch hpc.symm.trans hn
    | create dir t pid' nm needReleased =>
      rw [(step_create hstep).1]
      rcases ih with ⟨hpc, hI⟩ | ⟨hpc, st₁, st₂, hrun₁, hn, hunref, hrun₂⟩
      · exact .inl ⟨hpc, hI.create hok hstep⟩
      · exact .inr ⟨hpc, st₁, st₂, hrun₁, hn, hunref, hrun₂.tail hok hstep⟩

/-- After the return, nodes are made only. -/
theorem returned_of_run (hrun : UnlinkRun this pid name st st') (hpc : st.pc = .returned) {P : Prop}
    (h : P ∧ UnlinkInv s this pid name A st ∨ ¬P ∧ st.freed = 2) :
    st'.pc = .returned ∧ (P ∧ UnlinkInv s this pid name A st' ∨ ¬P ∧ st'.freed = 2) := by
  refine hrun.invariant (I := fun st => st.pc = .returned ∧
    (P ∧ UnlinkInv s this pid name A st ∨ ¬P ∧ st.freed = 2))
    (fun {st op st'} hI hok hstep => ?_) ⟨hpc, h⟩
  obtain ⟨hpc, h⟩ := hI
  cases op with
  | lookup => exact nomatch hpc.symm.trans hok
  | destroy =>
    obtain ⟨n, hn⟩ := hok
    exact nomatch hpc.symm.trans hn
  | unref =>
    obtain ⟨n, hn⟩ := hok
    exact nomatch hpc.symm.trans hn
  | create dir t pid' nm needReleased =>
    obtain ⟨hpc', hfreed⟩ := step_create hstep
    refine ⟨hpc'.trans hpc, h.imp (And.imp_right fun hI => ?_) (And.imp_right hfreed.trans)⟩
    exact hI.create hok hstep

/-- The steps up to the last one, and that one, are a run. -/
theorem DropsIn.run {st₁ : Unlinking} (hd : DropsIn s this pid name A st₁ st) :
    UnlinkRun this pid name ⟨s, .called, [], 0⟩ st := by
  obtain ⟨st₂, hrun₁, hn, hunref, hrun₂⟩ := hd
  have hok : st₁.Legal .unref := ⟨A, hn⟩
  exact (hrun₁.tail hok hunref).trans hrun₂

/-- What has become of the call is decided when the reference is dropped. -/
theorem DropsIn.released_iff {st₁ : Unlinking} (hs : Tree s)
    (hfind : s.fileNamed this name.1 (CStr.strlen name.1) = some A)
    (hcan : (s.nodes A).canRemove pid) (hd : DropsIn s this pid name A st₁ st) :
    Released s A st ↔ Spared st₁.vfs A := by
  obtain ⟨st₂, hrun₁, hn, hunref, hrun₂⟩ := hd
  have hI := ((cases_of_run hs hfind hcan hrun₁).resolve_right fun h => nomatch hn.symm.trans h.1).2
  obtain ⟨st', hstep, hpc, hcase⟩ := hI.unref hn
  obtain rfl := Option.some.inj (hstep.symm.trans hunref)
  obtain ⟨hpc, ⟨hspared, hI⟩ | ⟨hspared, hfreed⟩⟩ := returned_of_run hrun₂ hpc hcase
  · exact iff_of_true (hI.released hpc) hspared
  · refine iff_of_false (fun hr => ?_) hspared
    have := hr.freed
    omega

/-- A step that may be taken returns. -/
theorem isSome_step (hI : st.pc ≠ .returned → UnlinkInv s this pid name A st) {op : UnlinkStep}
    (hok : st.Legal op) : (st.step this pid name op).isSome := by
  cases op with
  | lookup =>
    obtain ⟨st', h, -⟩ := (hI (by rw [hok]; nofun)).lookup hok
    rw [h, Option.isSome_some]
  | destroy =>
    obtain ⟨n, hn⟩ := hok
    obtain ⟨st', h, -⟩ := (hI (by rw [hn]; nofun)).destroy hn
    rw [h, Option.isSome_some]
  | unref =>
    obtain ⟨n, hn⟩ := hok
    have hI := hI (by rw [hn]; nofun)
    obtain ⟨st', h, -⟩ := hI.unref (hI.pc_eq hn)
    rw [h, Option.isSome_some]
  | create dir t pid' nm needReleased =>
    rw [Unlinking.step]
    split <;> rfl

/-! ## Without directories -/

/-- `unlink` has found out that there is no directory, or will. -/
structure UnlinkRefused (st : Unlinking) : Prop where
  ownInit : st.vfs.ownInit = false
  flat : ∀ i, (st.vfs.nodes i).nodeType ≠ .Directory
  pc : st.pc = .called ∨ st.pc = .returned
  freed : st.freed = 0

theorem initAs_ownInit : (s.initAs i t pid dir name needReleased).ownInit = s.ownInit := by
  simp only [initAs, attach, retain, addTail, setNodeType]
  split_ifs <;> rfl

/-- A node that is made gets the type of its class, and no other node another type. -/
theorem initAs_nodeType : ((s.initAs i t pid dir name needReleased).nodes j).nodeType =
    if j = i then s.initType t else (s.nodes j).nodeType := by
  have hretain (s : Vfs) : ((s.attach dir i).nodes j).nodeType = (s.nodes j).nodeType := by
    rw [attach, addTail, setList_nodes, retain]
    by_cases hj : j = dir
    · rw [hj, setNode_self]
    · rw [setNode_of_ne hj]
  have hclear (b : Prop) [Decidable b] (s : Vfs) :
      (if b then (s.setList (.dirs i) []).setList (.files i) [] else s).nodes = s.nodes := by
    split_ifs <;> rfl
  rw [initAs, hretain]
  by_cases hj : j = i
  · rw [hj, setNode_self, hclear, setNodeType, setNode_self, if_pos rfl]
  · rw [setNode_of_ne hj, hclear, setNodeType, setNode_of_ne hj, if_neg hj]

/-- In the code, every step is a refusal, or one of another thread. -/
theorem UnlinkRefused.step {op : UnlinkStep} (hI : UnlinkRefused st) (hok : st.Legal op) :
    ∃ st', st.step this pid name op = some st' ∧ UnlinkRefused st' := by
  cases op with
  | lookup => exact ⟨_, if_pos (hI.flat this), hI.ownInit, hI.flat, .inr rfl, hI.freed⟩
  | destroy | unref =>
    obtain ⟨n, hn⟩ := hok
    rcases hI.pc with h | h
    · exact nomatch h.symm.trans hn
    · exact nomatch h.symm.trans hn
  | create dir t pid' nm needReleased =>
    rw [Unlinking.step, createObjNode, allocate]
    cases hfree : st.vfs.lists .free with
    | nil => exact ⟨st, rfl, hI⟩
    | cons i l =>
      refine ⟨_, rfl, initAs_ownInit.trans hI.ownInit, fun j => ?_, hI.pc, hI.freed⟩
      simp only [initAs_nodeType]
      split_ifs
      · exact initType_ne_directory hI.ownInit
      · exact hI.flat j

/-- And so is every run. -/
theorem unlinkRefused_of_run (hs : Flat s) (hrun : UnlinkRun this pid name ⟨s, .called, [], 0⟩ st) :
    UnlinkRefused st := by
  refine hrun.invariant (fun {st op st'} hI hok hstep => ?_) ⟨hs.ownInit, hs.flat, .inl rfl, rfl⟩
  obtain ⟨st₁, hstep₁, hI₁⟩ := hI.step hok
  exact Option.some.inj (hstep₁.symm.trans hstep) ▸ hI₁

/-- **`unlink` releases its node only**, in the code never, as it refuses to. If there are
    directories, it does, once it has returned, just if the slot was free still when the reference
    was dropped, or had become a directory with a child. Every step returns. -/
theorem unlink_iff (hs : Flat s ∨ Tree s)
    (hfind : s.fileNamed this name.1 (CStr.strlen name.1) = some A)
    (hcan : (s.nodes A).canRemove pid) (hrun : UnlinkRun this pid name ⟨s, .called, [], 0⟩ st) :
    (∀ op, st.Legal op → (st.step this pid name op).isSome) ∧
    (s.ownInit = false → ¬Released s A st) ∧
    (s.ownInit = true → (st.pc = .returned → ∃ st₁, DropsIn s this pid name A st₁ st) ∧
      ∀ st₁, DropsIn s this pid name A st₁ st → (Released s A st ↔ Spared st₁.vfs A)) := by
  rcases hs with hs | hs
  · have hI := unlinkRefused_of_run hs hrun
    refine ⟨fun op hok => ?_, fun _ hr => ?_,
      fun hown => Bool.noConfusion (hs.ownInit.symm.trans hown)⟩
    · obtain ⟨st', hstep, -⟩ : ∃ st', st.step this pid name op = some st' ∧ UnlinkRefused st' :=
        hI.step hok
      rw [hstep, Option.isSome_some]
    · exact one_ne_zero (hr.freed.symm.trans hI.freed)
  · have hcases := cases_of_run hs hfind hcan hrun
    have hI (hpc : st.pc ≠ .returned) : UnlinkInv s this pid name A st :=
      (hcases.resolve_right fun h => hpc h.1).2
    refine ⟨fun op hok => isSome_step hI hok,
      fun hown => Bool.noConfusion (hs.ownInit.symm.trans hown),
      fun _ => ⟨fun hpc => (hcases.resolve_left fun h => h.1 hpc).2, fun st₁ hd =>
        hd.released_iff hs hfind hcan⟩⟩

theorem zero_not_mem_nil : 0 ∉ ([] : List Char).map Char.toUInt8 := by decide

theorem zero_not_mem_f : 0 ∉ ['f'].map Char.toUInt8 := by decide

/-- A link `f` in the home directory, and as many more as given. -/
def links (n : ℕ) : List VfsOp :=
  .symlink homeNode 7 (.ofChars ['f'] zero_not_mem_f) true ::
    List.replicate n (.symlink homeNode 7 (.ofChars [] zero_not_mem_nil) true)

/-- The link is looked up, and destroyed, and another node is made. -/
def unlinkAndMake : List UnlinkStep :=
  [.lookup, .destroy, .create homeNode .File 7 (.ofChars ['g'] (by decide)) true]

/-- The facts about a run of these steps, from a tree of that many links. -/
theorem exists_dropsIn {n : ℕ} {b : Bool}
    (h : (execute step (fun s op => Allowed s op ∧ Tame s op) (start true) (links n)).map (fun s =>
      (s.fileNamed homeNode (CStr.ofChars ['f'] (by decide)).1 1, decide ((s.nodes 5).canRemove 7),
        (execute (Unlinking.step homeNode 7 (.ofChars ['f'] (by decide))) Unlinking.Legal
          ⟨s, .called, [], 0⟩ unlinkAndMake).map fun st => (st.pc, decide (Spared st.vfs 5)))) =
      some (some 5, true, some (.destroyed 5, b))) :
    ∃ s st₁, Tree s ∧ s.fileNamed homeNode (CStr.ofChars ['f'] (by decide)).1 1 = some 5 ∧
      (s.nodes 5).canRemove 7 ∧ (Spared st₁.vfs 5 ↔ b = true) ∧
      ∃ st, DropsIn s homeNode 7 (.ofChars ['f'] (by decide)) 5 st₁ st := by
  obtain ⟨s, hrun, heq⟩ := Run.exists_of_execute h
  obtain ⟨hfind, heq⟩ := Prod.mk.inj heq
  obtain ⟨hcan, heq⟩ := Prod.mk.inj heq
  obtain ⟨st₁, hrun₁, heq⟩ := Run.exists_of_execute heq
  obtain ⟨hpc, hspared⟩ := Prod.mk.inj heq
  have hs := tree_of_run hrun
  have hcan := of_decide_eq_true hcan
  have hI :=
    ((cases_of_run hs hfind hcan hrun₁).resolve_right fun h => nomatch hpc.symm.trans h.1).2
  obtain ⟨st, hstep, -⟩ := hI.unref hpc
  refine ⟨s, st₁, hs, hfind, hcan, ?_, st, st, hrun₁, hpc, hstep, .refl⟩
  rw [← hspared, decide_eq_true_iff]

/-- The kernel unlinks the home directory of the code, which stays. And if there are directories, a
    link is released, as there is another free node for the one that is made. -/
theorem released_link :
    (∃ st, UnlinkRun rootNode kernelPid home ⟨init, .called, [], 0⟩ st ∧
      st.pc = .returned ∧ ¬Released init homeNode st) ∧
    ∃ s st₁ st, DropsIn s homeNode 7 (.ofChars ['f'] (by decide)) 5 st₁ st ∧ Released s 5 st := by
  constructor
  · have hfind : init.fileNamed rootNode home.1
        (CStr.strlen home.1) = some homeNode := by decide +kernel
    obtain ⟨st, hrun, hst⟩ := Run.exists_of_execute (by decide +kernel :
      (execute (Unlinking.step rootNode kernelPid home)
        Unlinking.Legal ⟨init, .called, [], 0⟩ [.lookup]).map Unlinking.pc = some .returned)
    exact ⟨st, hrun, hst, (unlink_iff (.inl flat_init) hfind rfl hrun).2.1 flat_init.ownInit⟩
  · obtain ⟨s, st₁, hs, hfind, hcan, hspared, st, hd⟩ := exists_dropsIn (n := 0) (b := true)
      (by decide +kernel)
    have hunlink := (unlink_iff (.inr hs) hfind hcan hd.run).2.2 hs.ownInit
    exact ⟨s, st₁, st, hd, (hunlink.2 st₁ hd).2 (hspared.2 rfl)⟩

/-- The home directory is not removed. And if there are directories, and no free node but the one
    given back, the new node is released as well. -/
theorem not_released :
    (∃ st, UnlinkRun rootNode kernelPid home ⟨init, .called, [], 0⟩ st ∧
      st.pc = .returned ∧ ¬Released init homeNode st) ∧
    ∃ s st₁ st, Tree s ∧
      s.fileNamed homeNode (CStr.ofChars ['f'] (by decide)).1 1 = some 5 ∧ (s.nodes 5).canRemove 7 ∧
      DropsIn s homeNode 7 (.ofChars ['f'] (by decide)) 5 st₁ st ∧ ¬Released s 5 st := by
  constructor
  · obtain ⟨st, hrun, hst⟩ := Run.exists_of_execute (by decide +kernel :
      (execute (Unlinking.step rootNode kernelPid home)
        Unlinking.Legal ⟨init, .called, [], 0⟩ [.lookup]).map (fun st => (st.pc, st.freed)) =
          some (.returned, 0))
    obtain ⟨hpc, hfreed⟩ := Prod.mk.inj hst
    exact ⟨st, hrun, hpc, fun hr => one_ne_zero (hr.freed.symm.trans hfreed)⟩
  · obtain ⟨s, st₁, hs, hfind, hcan, hspared, st, hd⟩ := exists_dropsIn (n := 194) (b := false)
      (by decide +kernel)
    refine ⟨s, st₁, st, hs, hfind, hcan, hd, fun hr => ?_⟩
    exact Bool.false_ne_true (hspared.1 ((hd.released_iff hs hfind hcan).1 hr))

end Vfs

end DemoOs
