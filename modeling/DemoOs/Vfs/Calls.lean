import DemoOs.Lib.Family
import DemoOs.Vfs.Node
import Mathlib.Tactic.FinCases

/-!
# What the calls do

The calls that make a node have one specification (`call_of_creation`): the search for the name does
not return, the name is found among the files of the directory, there is no memory, or the first
free node is moved from the free list to a list of the directory (`Created`). It needs the lists to
be apart, and the nodes in them to have their names and the free ones to be blank (`Linked`), which
a creation preserves (`Linked.created`).

At the start the directories of `VFS::init` are in the root, in one of its lists or the other
(`mem_start`).
-/

namespace DemoOs

open Family

/-- The directory of a list. -/
def NodeHdr.dir : NodeHdr → Option Slot
  | free => none
  | dirs d => some d
  | files d => some d

/-- The list for nodes of a type, in a directory. -/
def NodeHdr.ofType (t : VfsNodeType) (dir : Slot) : NodeHdr :=
  if t = .Directory then .dirs dir else .files dir

@[simp] theorem NodeHdr.dir_ofType (t : VfsNodeType) (dir : Slot) :
    (ofType t dir).dir = some dir := by
  unfold ofType
  split_ifs <;> rfl

/-- A node in use is in a list of its parent. -/
theorem NodeHdr.ofType_ne_free (t : VfsNodeType) (dir : Slot) : ofType t dir ≠ .free := by
  unfold ofType
  split_ifs <;> nofun

namespace VfsNode

variable {n : VfsNode} {name : CStr} {subName : List UInt8} {nameLen : ℕ}

@[simp] theorem addRefCount_nodeType {val : ℕ} : (n.addRefCount val).nodeType = n.nodeType := by
  cases n
  rfl

@[simp] theorem addRefCount_parent {val : ℕ} : (n.addRefCount val).parent = n.parent := by
  cases n
  rfl

/-- The node has the name, and its length. -/
def HasName (n : VfsNode) (name : CStr) : Prop := n.name = some name ∧ n.nameLen = name.1.length

/-- A node has one name only. -/
theorem HasName.eq {name' : CStr} (h : n.HasName name) (h' : n.HasName name') : name = name' :=
  Option.some.inj (h.1.symm.trans h'.1)

/-- The name is compared to as many bytes as it has. -/
theorem HasName.isNamed_iff (h : n.HasName name) (hsub : 0 ∉ subName) :
    n.isNamed subName nameLen ↔ name.1.length = nameLen ∧ name.1 = subName.take nameLen := by
  rw [isNamed, h.1, h.2]
  simp only [Bool.and_eq_true, decide_eq_true_eq]
  refine and_congr_right fun hlen => ?_
  rw [CStr.strncmp_eq_zero_iff name.2 hsub, List.take_of_length_le hlen.le]

/-- A whole name is compared. -/
theorem HasName.isNamed_strlen_iff {name' : CStr} (h : n.HasName name) :
    n.isNamed name'.1 (CStr.strlen name'.1) ↔ name = name' := by
  rw [h.isNamed_iff name'.2, CStr.strlen, List.take_length, Subtype.ext_iff]
  exact and_iff_right_of_imp fun h => congrArg List.length h

/-- A node just made in a directory. -/
structure IsNew (n : VfsNode) (t : VfsNodeType) (dir : Slot) (name : CStr) (dev : Bool) : Prop where
  nodeType : n.nodeType = t
  hasName : n.HasName name
  refCount : n.refCount = 1
  parent : n.parent = some dir
  dev : n.dev = dev

end VfsNode

namespace Vfs

variable {s s' : Vfs} {dir i j : Slot} {t : VfsNodeType} {name : CStr} {h : NodeHdr}
  {make : Vfs → Slot → Vfs} {op : VfsOp} {copied : Bool}

/-! ## Frame lemmas -/

variable {f : VfsNode → VfsNode} {l : List Slot}

@[simp] theorem setNode_lists : (s.setNode i f).lists = s.lists := rfl

@[simp] theorem setNode_allocatedCount : (s.setNode i f).allocatedCount = s.allocatedCount := rfl

@[simp] theorem setNode_fsDescTable : (s.setNode i f).fsDescTable = s.fsDescTable := rfl

@[simp] theorem setNode_ownInit : (s.setNode i f).ownInit = s.ownInit := rfl

@[simp] theorem setNode_self : (s.setNode i f).nodes i = f (s.nodes i) := Function.update_self ..

/-- The other nodes are left as they are. -/
theorem setNode_of_ne (hne : j ≠ i) : (s.setNode i f).nodes j = s.nodes j :=
  Function.update_of_ne hne ..

/-- Two changes to one node are one change. -/
theorem setNode_setNode {g : VfsNode → VfsNode} :
    (s.setNode i f).setNode i g = s.setNode i fun n => g (f n) := by
  simp [setNode]

@[simp] theorem setList_nodes : (s.setList h l).nodes = s.nodes := rfl

@[simp] theorem setList_allocatedCount : (s.setList h l).allocatedCount = s.allocatedCount := rfl

@[simp] theorem setList_fsDescTable : (s.setList h l).fsDescTable = s.fsDescTable := rfl

@[simp] theorem setList_ownInit : (s.setList h l).ownInit = s.ownInit := rfl

/-- A list that is what it is set to. -/
theorem setList_eq_self (hl : s.lists h = l) : s.setList h l = s := by
  rw [setList, ← hl, Function.update_eq_self]

/-! ## Creation -/

/-- The node `i` is linked into the directory, as a node of this type and name. -/
structure Entered (s s' : Vfs) (dir i : Slot) (t : VfsNodeType) (name : CStr)
    (dev : Bool) : Prop where
  lists : s'.lists =
    Function.update s.lists (.ofType t dir) (s.lists (.ofType t dir) ++ [i])
  count : s'.allocatedCount = s.allocatedCount
  table : s'.fsDescTable = s.fsDescTable
  ownInit : s'.ownInit = s.ownInit
  isNew : (s'.nodes i).IsNew t dir name dev
  dir_eq : s'.nodes dir = (s.nodes dir).addRefCount 1
  other_eq : ∀ j, j ≠ i → j ≠ dir → s'.nodes j = s.nodes j

/-- Initialising a node with a type enters it. -/
theorem entered_initNode (hne : i ≠ dir) (pid : UInt16) :
    Entered s ((s.setNodeType i t).initNode i pid (some dir) name) dir i t name false := by
  have hdir : dir ≠ i := hne.symm
  refine ⟨?_, rfl, rfl, rfl, ⟨?_, ⟨?_, ?_⟩, ?_, ?_, ?_⟩, ?_, fun j hj hj' => ?_⟩ <;>
    simp [initNode, addChild, addTail, ref, setNodeType, setList, childHdr, setNode, NodeHdr.ofType,
      CStr.strlen, *]

/-- The fields that `createFile` and `createdev` set afterwards. -/
theorem Entered.setNode {b : Bool} (hs : Entered s s' dir i t name b) (hne : i ≠ dir)
    (hf : ∀ n, n.IsNew t dir name b → (f n).IsNew t dir name (decide (t = .Device))) :
    Entered s (s'.setNode i f) dir i t name (decide (t = .Device)) where
  lists := hs.lists
  count := hs.count
  table := hs.table
  ownInit := hs.ownInit
  isNew := by
    rw [setNode_self]
    exact hf _ hs.isNew
  dir_eq := by rw [setNode_of_ne hne.symm, hs.dir_eq]
  other_eq j hj hj' := by rw [setNode_of_ne hj, hs.other_eq j hj hj']

/-- The type of a node that is made as one of this type. -/
def initType (s : Vfs) (t : VfsNodeType) : VfsNodeType :=
  if s.ownInit ∨ t = .Device then t else .File

/-- With `init` functions of their own, nodes are of the types they are meant to be of. -/
theorem initType_of_ownInit (hown : s.ownInit = true) : s.initType t = t := if_pos (.inl hown)

/-- Without, none is a directory. -/
theorem initType_ne_directory (hown : s.ownInit = false) : s.initType t ≠ .Directory := by
  by_cases hdev : t = .Device
  · rw [initType, if_pos (.inr hdev), hdev]
    nofun
  · rw [initType, if_neg (by simp [hown, hdev])]
    nofun

/-- A device is one in any case: its type is set after `init`. -/
theorem initType_eq_device_iff : s.initType t = .Device ↔ t = .Device := by
  unfold initType
  split_ifs with ht
  · rfl
  · exact iff_of_false nofun fun h => ht (.inr h)

/-- `make` makes nodes of this type and name in the directory. If it clears their lists, it makes
    them out of nodes without children. -/
def Inits (make : Vfs → Slot → Vfs) (dir : Slot) (t : VfsNodeType) (name : CStr) : Prop :=
  ∀ {s i}, i ≠ dir → (s.ownInit = true → s.lists (.dirs i) = [] ∧ s.lists (.files i) = []) →
    Entered s (make s i) dir i (s.initType t) name (decide (t = .Device))

/-- `VFSDir::init`, in a slot that is taken for it. -/
theorem inits_dir (pid : UInt16) :
    Inits (fun s i => s.initDir i pid (some dir) name) dir .Directory name := by
  intro s i hne hempty
  cases hown : s.ownInit with
  | false =>
    simp only [initDir, initType, hown, Bool.false_eq_true, if_false, false_or]
    exact entered_initNode hne pid
  | true =>
    obtain ⟨hdirs, hfiles⟩ := hempty hown
    have hlists : ((s.setNodeType i .Directory).setList (.dirs i) []).setList (.files i) [] =
        s.setNodeType i .Directory := by
      rw [setList_eq_self (s := s.setNodeType i .Directory) hdirs]
      exact setList_eq_self (s := s.setNodeType i .Directory) hfiles
    simp only [initDir, hown, if_true, hlists, initType_of_ownInit]
    exact entered_initNode hne pid

/-- `VFSLink::init`. -/
theorem inits_link (pid : UInt16) :
    Inits (fun s i => s.initLink i pid dir name) dir .HardLink name := by
  intro s i hne _
  cases hown : s.ownInit with
  | false =>
    simp only [initLink, initType, hown, Bool.false_eq_true, if_false, false_or]
    exact entered_initNode hne pid
  | true =>
    simp only [initLink, hown, if_true, initType_of_ownInit]
    exact entered_initNode hne pid

/-- A file is made as a file. -/
theorem inits_file (pid : UInt16) :
    Inits (fun s i => (s.initFile i pid (some dir) name).setNode i fun n =>
      { n with needReleased := true })
      dir .File name := by
  intro s i hne _
  have ht : s.initType .File = .File := ite_self _
  rw [ht]
  exact (entered_initNode hne pid).setNode hne fun _ h => { h with }

/-- `VFSFile::init`, of a device. -/
theorem inits_device (pid : UInt16) (needCopy : Bool) :
    Inits (fun s i => (s.initDevice i pid dir name).setNode i fun n =>
      { n with needReleased := needCopy, dev := true }) dir .Device name := by
  intro s i hne _
  have ht : s.initType .Device = .Device := if_pos (.inr rfl)
  rw [ht]
  exact (entered_initNode hne pid).setNode hne fun _ h => { h with dev := rfl }

/-- Free nodes have no children, where there are directories, and nodes in a directory have
    names. -/
structure Linked (s : Vfs) : Prop where
  apart : Apart s.lists
  childless : s.ownInit = true → ∀ i ∈ s.lists .free, ∀ h : NodeHdr, h.dir = some i → s.lists h = []
  blank : ∀ i ∈ s.lists .free, (s.nodes i).nodeType ≠ .Directory
  named : ∀ h ≠ .free, ∀ i ∈ s.lists h, ∃ name, (s.nodes i).HasName name

/-- A free node `i` has become a node of this type and name in the directory. -/
structure Created (s s' : Vfs) (dir i : Slot) (t : VfsNodeType) (name : CStr) : Prop where
  free : i ∈ s.lists .free
  dir_not_free : dir ∉ s.lists .free
  lists : s'.lists = move s.lists i (.ofType t dir)
  count : s'.allocatedCount = word (s.allocatedCount + 1)
  table : s'.fsDescTable = Function.update s.fsDescTable i (some i)
  ownInit : s'.ownInit = s.ownInit
  isNew : (s'.nodes i).IsNew t dir name (decide (t = .Device))
  dir_eq : s'.nodes dir = (s.nodes dir).addRefCount 1
  other_eq : ∀ j, j ≠ i → j ≠ dir → s'.nodes j = s.nodes j

/-- A node is made if there is a free one. -/
theorem Linked.createObjNode (hs : Linked s) (hdir : dir ∉ s.lists .free)
    (hinit : Inits make dir t name) :
    s.createObjNode make = (s, none) ∨
      ∃ i s', s.createObjNode make = (s', some i) ∧ Created s s' dir i (s.initType t) name := by
  unfold Vfs.createObjNode allocate
  cases hfree : s.lists .free with
  | nil => exact .inl rfl
  | cons i l =>
    have hi : i ∈ s.lists .free := by simp [hfree]
    have hne : i ≠ dir := fun h => hdir (h ▸ hi)
    have he := hinit (s := { s.setList .free l with
        allocatedCount := word (s.allocatedCount + 1)
        fsDescTable := Function.update s.fsDescTable i (some i) }) hne fun hown => by
      have hempty (h : NodeHdr) (hh : h.dir = some i) : s.lists h = [] :=
        hs.childless hown i hi h hh
      simp [setList, hempty (.dirs i) rfl, hempty (.files i) rfl]
    refine .inr ⟨i, _, rfl, hi, hdir, ?_, he.count, he.table, he.ownInit, ?_, he.dir_eq,
      he.other_eq⟩
    · have ht : initType { s.setList .free l with
          allocatedCount := word (s.allocatedCount + 1)
          fsDescTable := Function.update s.fsDescTable i (some i) } t = s.initType t := rfl
      rw [he.lists, ht, hs.apart.move_of_cons hfree (NodeHdr.ofType_ne_free _ dir).symm]
      simp [setList, Function.update_of_ne (NodeHdr.ofType_ne_free _ dir)]
    · rw [decide_eq_decide.2 initType_eq_device_iff]
      exact he.isNew

/-- The file of a name is looked for in lists with headers only, unless the name is empty. -/
theorem findFileInDir_of_or (h : name.1 = [] ∨ s.hasLists dir) :
    s.findFileInDir dir name.1 (CStr.strlen name.1) =
      some (s.fileNamed dir name.1 (CStr.strlen name.1)) :=
  if_pos (h.imp_left List.length_eq_zero_iff.2)

/-- No child is found in a directory that has no lists. -/
theorem findFileInDir_of_not_or (h : ¬(name.1 = [] ∨ s.hasLists dir)) :
    s.findFileInDir dir name.1 (CStr.strlen name.1) = none :=
  if_neg (mt (Or.imp_left List.length_eq_zero_iff.1) h)

/-- `createIn` does not find the end of the list, finds a file of the name, or runs out of memory or
    nodes, or makes the node. -/
theorem Linked.createIn (hs : Linked s) (copied : Bool) (hdir : dir ∉ s.lists .free)
    (hinit : Inits make dir t name) :
    (name.1 ≠ [] ∧ ¬s.hasLists dir ∧ s.createIn dir name copied make = none) ∨
      (name.1 = [] ∨ s.hasLists dir) ∧
        (((s.fileNamed dir name.1 (CStr.strlen name.1)).isSome ∧
            s.createIn dir name copied make = some (.EEXIST, s)) ∨
          (s.fileNamed dir name.1 (CStr.strlen name.1) = none ∧
            (s.createIn dir name copied make = some (.ENOMEM, s) ∨
              ∃ i s', s.createIn dir name copied make = some (.ENONE, s') ∧
                Created s s' dir i (s.initType t) name))) := by
  unfold Vfs.createIn
  by_cases hlists : name.1 = [] ∨ s.hasLists dir
  · refine .inr ⟨hlists, ?_⟩
    rw [findFileInDir_of_or hlists, Option.map_some]
    cases hfind : s.fileNamed dir name.1 (CStr.strlen name.1) with
    | some j => exact .inl ⟨rfl, rfl⟩
    | none =>
      refine .inr ⟨rfl, ?_⟩
      rw [Option.isSome_none, if_neg Bool.false_ne_true]
      cases copied with
      | false => exact .inl rfl
      | true =>
        rcases hs.createObjNode hdir hinit with hnone | ⟨i, s', hsome, hc⟩
        · exact .inl (by rw [if_pos rfl, hnone])
        · exact .inr ⟨i, s', by rw [if_pos rfl, hsome], hc⟩
  · refine .inl ⟨fun h => hlists (.inl h), fun h => hlists (.inr h), ?_⟩
    rw [findFileInDir_of_not_or hlists, Option.map_none]

/-- The directory, type and name of the node a call makes, unless it is refused by the type of the
    node it is called for. -/
def creation (s : Vfs) : VfsOp → Option (Slot × VfsNodeType × CStr)
  | .mkdir this _ name _ =>
    if (s.nodes this).nodeType = .Directory then some (this, s.initType .Directory, name) else none
  | .symlink this _ name _ =>
    if (s.nodes this).nodeType = .Directory then some (this, s.initType .File, name) else none
  | .link this _ dir name _ =>
    if (s.nodes this).nodeType = .Directory then none else some (dir, s.initType .HardLink, name)
  | .createdev this _ name _ _ =>
    if (s.nodes this).nodeType = .Directory then some (this, s.initType .Device, name) else none
  | .addDev name _ _ =>
    if (s.nodes devNode).nodeType = .Directory
      then some (devNode, s.initType .Device, name) else none
  | _ => none

/-- The node may be given to a call as a directory: it is in use, and it is one, where there are
    any. -/
def AsDirectory (s : Vfs) (d : Slot) : Prop :=
  d ∉ s.lists .free ∧ (s.ownInit = true → (s.nodes d).nodeType = .Directory)

instance (s : Vfs) (d : Slot) : Decidable (AsDirectory s d) :=
  inferInstanceAs (Decidable (d ∉ s.lists .free ∧
    (s.ownInit = true → (s.nodes d).nodeType = .Directory)))

/-- A node is made in a directory, or in what has been given to `link` as one. -/
theorem Linked.asDirectory_of_creation (hs : Linked s) (hop : creation s op = some (dir, t, name))
    (hlink : ∀ this pid copied, op = .link this pid dir name copied → AsDirectory s dir) :
    AsDirectory s dir := by
  have hdir (h : (s.nodes dir).nodeType = .Directory) : AsDirectory s dir :=
    ⟨fun hfree => hs.blank dir hfree h, fun _ => h⟩
  cases op with
  | mkdir | symlink | createdev | addDev =>
    obtain ⟨htype, heq⟩ := Option.ite_none_right_eq_some.1 hop
    exact hdir ((Prod.mk.inj (Option.some.inj heq)).1 ▸ htype)
  | link =>
    obtain ⟨-, heq⟩ := Option.ite_none_left_eq_some.1 hop
    obtain ⟨rfl, -, rfl⟩ : _ = dir ∧ _ = t ∧ _ = name := by simpa using heq
    exact hlink _ _ _ rfl
  | _ => exact nomatch hop

/-- The calls that make nodes. -/
def Creates : VfsOp → Prop
  | .mkdir .. | .symlink .. | .link .. | .createdev .. | .addDev .. => True
  | _ => False

/-- A call that makes nodes is refused, and nothing changed, or it is `createIn`. -/
theorem call_of_creates (hop : Creates op) :
    (creation s op = none ∧ ∃ e, s.call op = some (.err e, s)) ∨
      ∃ dir t name copied make, creation s op = some (dir, s.initType t, name) ∧
        Inits make dir t name ∧
        s.call op = (s.createIn dir name copied make).map (.map .err id) := by
  -- All five make a node in a directory, and differ in its type and its name.
  cases op with
  | mkdir this pid name copied =>
    by_cases ht : (s.nodes this).nodeType = .Directory
    · exact .inr ⟨_, _, _, copied, _, if_pos ht,
        inits_dir pid, by rw [call, mkdir, if_neg (not_not.2 ht)]⟩
    · exact .inl ⟨if_neg ht, .ENOTDIR, by rw [call, mkdir, if_pos ht]; rfl⟩
  | symlink this pid name copied =>
    by_cases ht : (s.nodes this).nodeType = .Directory
    · exact .inr ⟨_, _, _, copied, _, if_pos ht, inits_file pid,
        by rw [call, symlink, if_neg (not_not.2 ht)]⟩
    · exact .inl ⟨if_neg ht, .ENOTDIR, by rw [call, symlink, if_pos ht]; rfl⟩
  | link this pid dir name copied =>
    by_cases ht : (s.nodes this).nodeType = .Directory
    · exact .inl ⟨if_pos ht, .EISDIR, by rw [call, link, if_pos ht]; rfl⟩
    · exact .inr ⟨_, _, _, copied, _, if_neg ht, inits_link pid, by rw [call, link, if_neg ht]⟩
  | createdev this pid name needCopy copied =>
    by_cases ht : (s.nodes this).nodeType = .Directory
    · exact .inr ⟨_, _, _, !needCopy || copied, _, if_pos ht, inits_device pid needCopy,
        by rw [call, createdev, if_neg (not_not.2 ht)]⟩
    · exact .inl ⟨if_neg ht, .ENOTDIR, by rw [call, createdev, if_pos ht]; rfl⟩
  | addDev name needCopy copied =>
    by_cases ht : (s.nodes devNode).nodeType = .Directory
    · exact .inr ⟨_, _, _, !needCopy || copied, _, if_pos ht, inits_device _ needCopy,
        by rw [call, addDev, createdev, if_neg (not_not.2 ht)]⟩
    · exact .inl ⟨if_neg ht, .ENOTDIR, by rw [call, addDev, createdev, if_pos ht]; rfl⟩
  | _ => exact hop.elim

/-- What a call does that is to make a node. -/
theorem Linked.call_of_creation (hs : Linked s) (hop : creation s op = some (dir, t, name))
    (hdir : dir ∉ s.lists .free) :
    (name.1 ≠ [] ∧ ¬s.hasLists dir ∧ s.call op = none) ∨
      (name.1 = [] ∨ s.hasLists dir) ∧
        (((s.fileNamed dir name.1 (CStr.strlen name.1)).isSome ∧
        s.call op = some (.err .EEXIST, s)) ∨
          (s.fileNamed dir name.1 (CStr.strlen name.1) = none ∧
            (s.call op = some (.err .ENOMEM, s) ∨
              ∃ i s', s.call op = some (.err .ENONE, s') ∧ Created s s' dir i t name))) := by
  have hcreates : Creates op := by cases op <;> trivial
  rcases call_of_creates (s := s) hcreates with ⟨hnone, -⟩ | ⟨d, t', nm, copied, make, hcr,
    hinit, hcall⟩
  · exact nomatch hnone.symm.trans hop
  · obtain ⟨rfl, rfl, rfl⟩ : d = dir ∧ s.initType t' = t ∧ nm = name := by simpa [hcr] using hop
    rw [hcall]
    rcases hs.createIn copied hdir hinit with
      ⟨hne, hlists, h⟩ | ⟨hlists, ⟨hfind, h⟩ | ⟨hfind, h | ⟨i, s', h, hc⟩⟩⟩
    · exact .inl ⟨hne, hlists, by rw [h]; rfl⟩
    · exact .inr ⟨hlists, .inl ⟨hfind, by rw [h]; rfl⟩⟩
    · exact .inr ⟨hlists, .inr ⟨hfind, .inl (by rw [h]; rfl)⟩⟩
    · exact .inr ⟨hlists, .inr ⟨hfind, .inr ⟨i, s', by rw [h]; rfl, hc⟩⟩⟩

/-! ## Removal -/

/-- The node `i` has left its list, and its parent `dir`. -/
structure Detached (s s' : Vfs) (dir i : Slot) : Prop where
  lists : s'.lists = fun h => (s.lists h).erase i
  count : s'.allocatedCount = s.allocatedCount
  table : s'.fsDescTable = s.fsDescTable
  ownInit : s'.ownInit = s.ownInit
  node_eq : ∃ nm, s'.nodes i = { s.nodes i with name := nm, parent := none, nodeType := .Invalid }
  dir_eq : s'.nodes dir = { s.nodes dir with refCount := (s.nodes dir).refCount - 1 }
  other_eq : ∀ j, j ≠ i → j ≠ dir → s'.nodes j = s.nodes j

/-- A node of a list is linked. -/
theorem isLinked_of_mem (hi : i ∈ s.lists h) : s.isLinked i := by
  unfold isLinked
  rw [Bool.or_eq_true, List.any_eq_true]
  cases h with
  | free => exact .inl (decide_eq_true hi)
  | dirs d => exact .inr ⟨d, List.mem_finRange d, by simp [hi]⟩
  | files d => exact .inr ⟨d, List.mem_finRange d, by simp [hi]⟩

/-- A node in a list is detached from its parent, unless the lock of that one is held. -/
theorem exists_detach {held : Option Slot} (hparent : (s.nodes i).parent = some dir) (hne : dir ≠ i)
    (hheld : held ≠ some dir) (hi : i ∈ s.lists h) :
    ∃ s', s.detach held true i = some s' ∧ Detached s s' dir i := by
  let s₁ : Vfs :=
    { s.setNode dir fun n => { n with refCount := n.refCount - 1 } with
      lists := fun h => (s.lists h).erase i }
  have hremove : s.removeChild held dir i = some s₁ := by
    rw [removeChild, if_neg hheld]
    exact if_pos (isLinked_of_mem (s := s) hi)
  have hs₁ : s₁.nodes i = s.nodes i := by simp [s₁, setNode_of_ne hne.symm]
  have hdir : s₁.nodes dir = { s.nodes dir with refCount := (s.nodes dir).refCount - 1 } := by
    simp [s₁]
  have hother (j : Slot) (hj : j ≠ dir) : s₁.nodes j = s.nodes j := by
    simp [s₁, setNode_of_ne hj]
  simp only [detach, or_true, if_true, hparent, hremove, Option.bind_eq_bind, Option.bind_some]
  refine ⟨_, rfl, ?_⟩
  split_ifs
  · exact ⟨rfl, rfl, rfl, rfl, ⟨none, by simp [invalidate, hs₁]⟩,
      by simp [invalidate, setNode_of_ne hne, hdir],
      fun j hj hj' => by simp [invalidate, setNode_of_ne hj, hother j hj']⟩
  · exact ⟨rfl, rfl, rfl, rfl, ⟨(s.nodes i).name, by simp [invalidate, hs₁]⟩,
      by simp [invalidate, setNode_of_ne hne, hdir],
      fun j hj hj' => by simp [invalidate, setNode_of_ne hj, hother j hj']⟩

/-! ## Searches -/

variable {subName : List UInt8} {nameLen : ℕ}

/-- A child that is found has the name. -/
theorem findIn_eq_some (hfind : s.findIn l subName nameLen = some i) :
    nameLen ≠ 0 ∧ i ∈ l ∧ (s.nodes i).isNamed subName nameLen := by
  rw [findIn] at hfind
  split_ifs at hfind with hlen
  have hnamed := List.find?_some (p := fun i => (s.nodes i).isNamed subName nameLen) hfind
  exact ⟨hlen, List.mem_of_find?_eq_some hfind, hnamed⟩

/-- If none is found, no child has the name. -/
theorem findIn_eq_none_iff :
    s.findIn l subName nameLen = none ↔
      (nameLen ≠ 0 → ∀ i ∈ l, ¬(s.nodes i).isNamed subName nameLen) := by
  rw [findIn]
  split_ifs with hlen
  · simp [hlen]
  · simp [hlen, List.find?_eq_none]

/-- A file is found just if there is one of the name, unless that is empty. -/
theorem Linked.isSome_fileNamed_iff (hs : Linked s) :
    (s.fileNamed dir name.1 (CStr.strlen name.1)).isSome ↔
      name.1 ≠ [] ∧ ∃ i ∈ s.lists (.files dir), (s.nodes i).HasName name := by
  rw [Option.isSome_iff_ne_none, fileNamed, Ne, findIn_eq_none_iff]
  simp only [Classical.not_imp, not_forall, not_not, CStr.strlen, Ne, List.length_eq_zero_iff]
  refine and_congr_right fun _ => exists_congr fun i => ?_
  refine and_congr_right fun hi => ?_
  obtain ⟨nm, hnm⟩ := hs.named (.files dir) nofun i hi
  exact hnm.isNamed_strlen_iff.trans ⟨fun h => h ▸ hnm, fun h => hnm.eq h⟩

/-! ## What creations preserve -/

/-- The new node is not the directory it is made in. -/
theorem Created.ne_dir (hc : Created s s' dir i t name) : i ≠ dir :=
  fun h => hc.dir_not_free (h ▸ hc.free)

/-- Nodes keep everything but the reference counter and the owner of the directory. -/
theorem Created.node_eq (hc : Created s s' dir i t name) (hne : j ≠ i) :
    ∃ r o, s'.nodes j = { s.nodes j with refCount := r, ower := o } := by
  by_cases hj : j = dir
  · subst hj
    exact ⟨_, _, hc.dir_eq⟩
  · exact ⟨_, _, hc.other_eq j hne hj⟩

/-- The other nodes keep their types. -/
theorem Created.nodeType_eq (hc : Created s s' dir i t name) (hne : j ≠ i) :
    (s'.nodes j).nodeType = (s.nodes j).nodeType := by
  obtain ⟨r, o, h⟩ := hc.node_eq hne
  rw [h]

/-- They keep their parents. -/
theorem Created.parent_eq (hc : Created s s' dir i t name) (hne : j ≠ i) :
    (s'.nodes j).parent = (s.nodes j).parent := by
  obtain ⟨r, o, h⟩ := hc.node_eq hne
  rw [h]

/-- They keep their names. -/
theorem Created.hasName_iff {nm : CStr} (hc : Created s s' dir i t name) (hne : j ≠ i) :
    (s'.nodes j).HasName nm ↔ (s.nodes j).HasName nm := by
  obtain ⟨r, o, h⟩ := hc.node_eq hne
  rw [h]
  rfl

/-- With a new node, every list has what it should. -/
theorem Linked.created (hs : Linked s) (hc : Created s s' dir i t name) : Linked s' where
  apart := hc.lists ▸ hs.apart.move _ _
  childless hown j hj h hh := by
    rw [hc.ownInit] at hown
    rw [hc.lists, hs.apart.mem_move] at hj
    obtain ⟨hne, hj⟩ := hj.resolve_left fun h => NodeHdr.ofType_ne_free t dir h.2.symm
    refine List.eq_nil_iff_forall_not_mem.2 fun x hx => ?_
    rw [hc.lists, hs.apart.mem_move, hs.childless hown j hj h hh] at hx
    rcases hx with ⟨-, rfl⟩ | ⟨-, hx⟩
    · rw [NodeHdr.dir_ofType, Option.some_inj] at hh
      exact hc.dir_not_free (hh ▸ hj)
    · exact List.not_mem_nil hx
  blank j hj := by
    rw [hc.lists, hs.apart.mem_move] at hj
    obtain ⟨hne, hj⟩ := hj.resolve_left fun h => NodeHdr.ofType_ne_free t dir h.2.symm
    rw [hc.nodeType_eq hne]
    exact hs.blank j hj
  named h hh j hj := by
    rw [hc.lists, hs.apart.mem_move] at hj
    rcases hj with ⟨rfl, -⟩ | ⟨hne, hj⟩
    · exact ⟨name, hc.isNew.hasName⟩
    · obtain ⟨nm, hnm⟩ := hs.named h hh j hj
      exact ⟨nm, (hc.hasName_iff hne).2 hnm⟩

/-! ## Start-up -/

variable {own : Bool}

@[simp] theorem start_ownInit (own : Bool) : (start own).ownInit = own := by
  cases own <;> rfl

/-- What the nodes of `VFS::init` are made as. -/
def startType (own : Bool) : VfsNodeType := if own then .Directory else .File

/-- `VFS::init` takes the first five nodes. -/
theorem start_free : ∀ own, (start own).lists .free = (List.finRange 200).drop 5 := by
  decide +kernel

/-- The other four are linked in the root. -/
theorem start_root :
    ∀ own, (start own).lists (.ofType (startType own) rootNode) = [1, 2, 3, 4] := by
  decide +kernel

/-- There is no other list of directories with a node in it. -/
theorem start_dirs : ∀ own d, NodeHdr.dirs d ≠ .ofType (startType own) rootNode →
    (start own).lists (.dirs d) = [] := by
  decide +kernel

/-- And none of files. -/
theorem start_files : ∀ own d, NodeHdr.files d ≠ .ofType (startType own) rootNode →
    (start own).lists (.files d) = [] := by
  decide +kernel

theorem ne_of_le_of_lt (hi : 5 ≤ i) (hj : j < 5) : i ≠ j :=
  fun h => absurd hj (Fin.not_lt.2 (h ▸ hi))

/-- Types and parents of the five nodes. -/
theorem start_nodes_of_lt : ∀ own, ∀ i : Slot, i < 5 →
    ((start own).nodes i).nodeType = startType own ∧
      ((start own).nodes i).parent = if i = rootNode then none else some rootNode := by
  decide +kernel

/-- The other nodes have not been touched. -/
theorem start_nodes_of_le (own : Bool) (hi : 5 ≤ i) :
    (start own).nodes i = (initManager own).nodes i := by
  have hroot : i ≠ rootNode := ne_of_le_of_lt hi (by decide)
  have huser : i ≠ rootUserNode := ne_of_le_of_lt hi (by decide)
  have hhome : i ≠ homeNode := ne_of_le_of_lt hi (by decide)
  have hdev : i ≠ devNode := ne_of_le_of_lt hi (by decide)
  have htmp : i ≠ tmpNode := ne_of_le_of_lt hi (by decide)
  have hown : (initAllocated own).ownInit = own := rfl
  cases own <;>
    simp [start, initDir, initFile, initNode, setList, setNode, setNodeType, addChild, ref,
      addTail, *] <;>
    rfl

/-- The five nodes are in the table as well. -/
theorem start_fsDescTable : ∀ own i, (start own).fsDescTable i = if i < 5 then some i
    else none := by
  decide +kernel

/-- Types and parents of all nodes. -/
theorem start_nodes (own : Bool) (i : Slot) :
    ((start own).nodes i).nodeType = (if i < 5 then startType own else .Invalid) ∧
      ((start own).nodes i).parent = if i < 5 ∧ i ≠ rootNode then some rootNode else none := by
  by_cases hlt : i < 5
  · obtain ⟨htype, hparent⟩ := start_nodes_of_lt own i hlt
    rw [htype, hparent, if_pos hlt]
    by_cases hroot : i = rootNode <;> simp [hroot, hlt]
  · rw [start_nodes_of_le own (Fin.not_lt.1 hlt), if_neg hlt, if_neg fun h => hlt h.1]
    exact ⟨rfl, rfl⟩

theorem mem_start_free : i ∈ (start own).lists .free ↔ 5 ≤ i := by
  rw [start_free, List.mem_drop_iff_getElem]
  constructor
  · rintro ⟨k, hk, rfl⟩
    rw [List.getElem_finRange]
    exact Nat.le_add_right 5 k
  · intro hi
    have hle : 5 ≤ i.1 := hi
    have hlt := i.isLt
    exact ⟨i.1 - 5, by rw [List.length_finRange]; omega, by ext; simp; omega⟩

theorem mem_start_root :
    i ∈ (start own).lists (.ofType (startType own) rootNode) ↔ i < 5 ∧ i ≠ rootNode := by
  rw [start_root]
  revert i
  decide +kernel

/-- A node is free, or in the root. -/
theorem mem_start (hi : i ∈ (start own).lists h) :
    (h = .free ∧ 5 ≤ i) ∨ (h = .ofType (startType own) rootNode ∧ i < 5 ∧ i ≠ rootNode) := by
  by_cases hroot : h = .ofType (startType own) rootNode
  · subst hroot
    exact .inr ⟨rfl, mem_start_root.1 hi⟩
  · cases h with
    | free => exact .inl ⟨rfl, mem_start_free.1 hi⟩
    | dirs d =>
      rw [start_dirs own d hroot] at hi
      exact absurd hi List.not_mem_nil
    | files d =>
      rw [start_files own d hroot] at hi
      exact absurd hi List.not_mem_nil

/-- They have names. -/
theorem hasName_start (own : Bool) : ∀ i ∈ (start own).lists (.ofType (startType own) rootNode),
    ∃ name, ((start own).nodes i).HasName name := by
  intro i hi
  rw [start_root] at hi
  cases own <;> fin_cases hi <;> exact ⟨_, rfl, rfl⟩

theorem zero_not_mem_home : 0 ∉ ['h', 'o', 'm', 'e'].map Char.toUInt8 := by decide

/-- The name of `/home`. -/
def home : CStr := .ofChars ['h', 'o', 'm', 'e'] zero_not_mem_home

/-- Every list of `VFS::init` has what it should. -/
theorem linked_start (own : Bool) : Linked (start own) where
  apart :=
    { nodup := by
        intro h
        -- The root links what `init` makes, all other lists are empty but that of the free nodes.
        by_cases hroot : h = .ofType (startType own) rootNode
        · rw [hroot, start_root]
          decide
        · cases h with
          | free => exact start_free own ▸ (List.nodup_finRange 200).sublist (List.drop_sublist 5 _)
          | dirs d => exact start_dirs own d hroot ▸ List.nodup_nil
          | files d => exact start_files own d hroot ▸ List.nodup_nil
      unique := by
        intro h k i hh hk
        rcases mem_start hh with ⟨rfl, hi⟩ | ⟨rfl, hi, -⟩ <;>
          rcases mem_start hk with ⟨rfl, hi'⟩ | ⟨rfl, hi', -⟩
        · rfl
        · exact absurd hi' (Fin.not_lt.2 hi)
        · exact absurd hi (Fin.not_lt.2 hi')
        · rfl }
  childless _ i hi h hh := by
    refine List.eq_nil_iff_forall_not_mem.2 fun x hx => ?_
    rcases mem_start hx with ⟨rfl, -⟩ | ⟨rfl, -⟩
    · exact nomatch hh
    · rw [NodeHdr.dir_ofType] at hh
      obtain rfl : rootNode = i := Option.some.inj hh
      exact absurd (mem_start_free.1 hi) (by decide)
  blank i hi := by
    rw [(start_nodes own i).1, if_neg (Fin.not_lt.2 (mem_start_free.1 hi))]
    exact nofun
  named h hh i hi := by
    obtain ⟨rfl, -⟩ := (mem_start hi).resolve_left fun h => hh h.1
    exact hasName_start own i hi

end Vfs

end DemoOs
