import DemoOs.Lib.Run
import DemoOs.Vfs.Strings

/-!
# The virtual file system

The functions of `vfsmanager.cpp`, `vfsnode.cpp`, `vfsdir.cpp` and `vfs.cpp` that make, find, rename
and destroy nodes. There is a pool of 200 nodes. A node is on the free list, or linked into a
directory, with the other directories in it or with its other children.

Nodes are named by their index in the pool. The link `_pList` of a node is in at most one list at a
time, and the lists are given by their contents. A function returns none when it follows a null
pointer, when it takes a node out of a list and the node is in none, or when it waits for a spinlock
it holds itself.

* The nodes are an array of `VFSFile`, and `init` is virtual. So it is the `init` of this class that
  `createObjNode` and `VFS::init` run, on a node of any class but `VFSDevice`, whose `init` is not
  virtual: no node becomes a directory or a link. Whether instead the `init` of the class itself is
  run is a parameter (`ownInit`), with which it can be told what this defect alone does. In the code
  it is false (`Vfs.init`).
* The lists of a node on which `VFSDir::init` has not been run have no headers. Where they would be,
  a `VFSFile` has `_isDynamic` and `_bufSize`, and `_fileSize` and `_data`, so that `next` of a
  header is 0x01000000 or null, and `prev` is null. What is added to such a list is stored by way of
  address 0, which is memory (`DBAT0`): it is linked, and can be taken out again. But a search
  begins at `next`, reads a name where nothing is mapped, and does not return (none). These lists
  are given by what has been added and not been taken out.
* What is not looked at below is left out: the mode, times and users of a node, the data of a file,
  the target of a link, and the other fields of the descriptors.
* Memory for the copy of a name is given by the heap or not; this is an argument (`copied`) of the
  calls.
-/

namespace DemoOs

/-- A node, by its `_nodeId`. -/
abbrev Slot := Fin 200

/-- Numerals are nodes. -/
instance instNeZeroSlot : NeZero 200 := ⟨by decide⟩

inductive VfsNodeType
  | Invalid
  | Directory
  | HardLink
  | SymLink
  | File
  | Device
  deriving DecidableEq

structure VfsNode where
  name : Option CStr
  nameLen : ℕ
  refCount : UInt16
  ower : UInt16
  needReleased : Bool
  parent : Option Slot
  nodeType : VfsNodeType
  /-- Whether `_dev` is not null. -/
  dev : Bool

/-- The headers of the lists: `freeListHeader` and, for each directory, `_childDirListHeader` and
    `_childFileListHeader`. -/
inductive NodeHdr
  | free
  | dirs (d : Slot)
  | files (d : Slot)
  deriving DecidableEq

structure Vfs where
  nodes : Slot → VfsNode
  lists : NodeHdr → List Slot
  allocatedCount : ℕ
  /-- The field `_node` of the descriptors. -/
  fsDescTable : Slot → Option Slot
  /-- Whether a node is initialised by the `init` of the class it is allocated for. -/
  ownInit : Bool

/-- The owner of what the kernel itself makes. -/
def kernelPid : UInt16 := 0

namespace VfsNode

/-- `Atomic::add` on `_refCount`. It adds to the word at this address, and the 16 bits of
    `_refCount` are its upper half: the lower half is `_ower`. So it is the owner that is counted up
    and down, with a carry into the reference counter. -/
def addRefCount (n : VfsNode) (val : ℕ) : VfsNode :=
  let w := word (n.refCount.toNat * 2 ^ 16 + n.ower.toNat + val)
  { n with refCount := .ofNat (w / 2 ^ 16), ower := .ofNat w }

def isDeletable (n : VfsNode) : Bool := n.ower ≠ kernelPid

/-- `canRemove`, of a process. -/
def canRemove (pid : UInt16) (n : VfsNode) : Bool := pid = kernelPid || n.isDeletable

/-- The test of a node in the three searches. A null name is not looked at. -/
def isNamed (n : VfsNode) (subName : List UInt8) (nameLen : ℕ) : Bool :=
  n.nameLen = nameLen &&
    match n.name with
    | some name => CStr.strncmp name.1 subName nameLen = 0
    | none => false

end VfsNode

namespace Vfs

/-- Writing a node. -/
def setNode (s : Vfs) (i : Slot) (f : VfsNode → VfsNode) : Vfs :=
  { s with nodes := Function.update s.nodes i (f (s.nodes i)) }

/-- Writing the contents of a list. -/
def setList (s : Vfs) (h : NodeHdr) (l : List Slot) : Vfs :=
  { s with lists := Function.update s.lists h l }

/-- `addNodeToRingDoubleListTail`. -/
def addTail (s : Vfs) (h : NodeHdr) (i : Slot) : Vfs := s.setList h (s.lists h ++ [i])

/-- Some list has the node. -/
def isLinked (s : Vfs) (i : Slot) : Bool :=
  i ∈ s.lists .free ||
    (List.finRange 200).any fun d => i ∈ s.lists (.dirs d) || i ∈ s.lists (.files d)

/-- `delNodeFromRingDoubleList`: the node leaves its list, whichever it is. -/
def delNode (s : Vfs) (i : Slot) : Option Vfs :=
  if s.isLinked i then some { s with lists := fun h => (s.lists h).erase i } else none

/-! ## The pool -/

/-- `VFSManager::allocate`. -/
def allocate (s : Vfs) : Vfs × Option Slot :=
  match s.lists .free with
  | [] => (s, none)
  | p :: l =>
    ({ s.setList .free l with
        allocatedCount := word (s.allocatedCount + 1)
        fsDescTable := Function.update s.fsDescTable p (some p) }, some p)

def invalidate (s : Vfs) (i : Slot) : Vfs := s.setNode i fun n => { n with nodeType := .Invalid }

/-- `VFSManager::deallocate`. -/
def deallocate (s : Vfs) (i : Slot) : Vfs :=
  let s := { s with allocatedCount := wordSub s.allocatedCount 1 }
  let s := (s.addTail .free i).invalidate i
  { s with fsDescTable := Function.update s.fsDescTable i none }

/-! ## Children -/

def ref (s : Vfs) (i : Slot) : Vfs := s.setNode i (·.addRefCount 1)

/-- The list of the directory a child goes into. -/
def childHdr (s : Vfs) (dir child : Slot) : NodeHdr :=
  if (s.nodes child).nodeType = .Directory then .dirs dir else .files dir

/-- `VFSDir::addChild`. -/
def addChild (s : Vfs) (dir child : Slot) : Vfs :=
  let s := s.ref dir
  s.addTail (s.childHdr dir child) child

/-- `VFSDir::removeChild`, while the spinlock of `held` is held. -/
def removeChild (s : Vfs) (held : Option Slot) (dir child : Slot) : Option Vfs :=
  -- The spinlock is taken a second time, and the call never returns.
  if held = some dir then none
  else (s.setNode dir fun n => { n with refCount := n.refCount - 1 }).delNode child

/-- `isEmptyDir`: it has no directory in it. -/
def isEmptyDir (s : Vfs) (d : Slot) : Bool := (s.lists (.dirs d)).isEmpty

/-- The first node of the name in a list of children. The empty name is not looked for. -/
def findIn (s : Vfs) (l : List Slot) (subName : List UInt8) (nameLen : ℕ) : Option Slot :=
  if nameLen = 0 then none else l.find? fun i => (s.nodes i).isNamed subName nameLen

def fileNamed (s : Vfs) (d : Slot) (subName : List UInt8) (nameLen : ℕ) : Option Slot :=
  s.findIn (s.lists (.files d)) subName nameLen

def dirNamed (s : Vfs) (d : Slot) (subName : List UInt8) (nameLen : ℕ) : Option Slot :=
  s.findIn (s.lists (.dirs d)) subName nameLen

def childNamed (s : Vfs) (d : Slot) (subName : List UInt8) (nameLen : ℕ) : Option Slot :=
  s.findIn (s.lists (.files d) ++ s.lists (.dirs d)) subName nameLen

/-- The lists of the node have headers. -/
def hasLists (s : Vfs) (d : Slot) : Bool := s.ownInit && (s.nodes d).nodeType = .Directory

/-- A search in the lists of a node. It returns at once for the empty name. -/
def search (s : Vfs) (d : Slot) (nameLen : ℕ) (found : Option Slot) : Option (Option Slot) :=
  if nameLen = 0 ∨ s.hasLists d then some found else none

def findFileInDir (s : Vfs) (d : Slot) (subName : List UInt8) (nameLen : ℕ) :
    Option (Option Slot) :=
  s.search d nameLen (s.fileNamed d subName nameLen)

def findDirInDir (s : Vfs) (d : Slot) (subName : List UInt8) (nameLen : ℕ) : Option (Option Slot) :=
  s.search d nameLen (s.dirNamed d subName nameLen)

def findAllInDir (s : Vfs) (d : Slot) (subName : List UInt8) (nameLen : ℕ) : Option (Option Slot) :=
  s.search d nameLen (s.childNamed d subName nameLen)

/-! ## Initialisation of nodes -/

/-- `VFSNode::init`, of a node that has got its type. -/
def initNode (s : Vfs) (i : Slot) (ower : UInt16) (parent : Option Slot) (name : CStr) : Vfs :=
  let s := s.setNode i fun n =>
    { n with
      name := some name
      nameLen := CStr.strlen name.1
      ower := ower
      refCount := 1
      needReleased := true
      dev := false
      parent := parent }
  match parent with
  | some dir => s.addChild dir i
  | none => s

def setNodeType (s : Vfs) (i : Slot) (t : VfsNodeType) : Vfs :=
  s.setNode i fun n => { n with nodeType := t }

/-- `VFSFile::init`. -/
def initFile (s : Vfs) (i : Slot) (pid : UInt16) (parent : Option Slot) (name : CStr) : Vfs :=
  (s.setNodeType i .File).initNode i pid parent name

/-- The `init` that is run where that of `VFSDir` is called. -/
def initDir (s : Vfs) (i : Slot) (pid : UInt16) (parent : Option Slot) (name : CStr) : Vfs :=
  if s.ownInit then
    (((s.setNodeType i .Directory).setList (.dirs i) []).setList (.files i) []).initNode i
      pid parent name
  else s.initFile i pid parent name

/-- The `init` that is run where that of `VFSLink` is called. -/
def initLink (s : Vfs) (i : Slot) (pid : UInt16) (parent : Slot) (name : CStr) : Vfs :=
  if s.ownInit then (s.setNodeType i .HardLink).initNode i pid (some parent) name
  else s.initFile i pid (some parent) name

/-- `VFSDevice::init`. -/
def initDevice (s : Vfs) (i : Slot) (pid : UInt16) (parent : Slot) (name : CStr) : Vfs :=
  (s.setNodeType i .Device).initNode i pid (some parent) name

/-- `VFS::createObjNode`, of the class with this `init`. -/
def createObjNode (s : Vfs) (init : Vfs → Slot → Vfs) : Vfs × Option Slot :=
  match s.allocate with
  | (s, some i) => (init s i, some i)
  | (s, none) => (s, none)

/-! ## Making nodes -/

/-- What `link`, `mkdir`, `symlink` and `createdev` have in common: a node is made in a directory
    unless it has a file of this name. -/
def createIn (s : Vfs) (dir : Slot) (name : CStr) (copied : Bool) (init : Vfs → Slot → Vfs) :
    Option (ErrNo × Vfs) :=
  (s.findFileInDir dir name.1 (CStr.strlen name.1)).map fun found =>
    if found.isSome then (.EEXIST, s)
    else if copied then
      match s.createObjNode init with
      | (s, some _) => (.ENONE, s)
      | (s, none) => (.ENOMEM, s)
    -- There is no memory for the copy of the name.
    else (.ENOMEM, s)

def link (s : Vfs) (this : Slot) (pid : UInt16) (dir : Slot) (name : CStr) (copied : Bool) :
    Option (ErrNo × Vfs) :=
  if (s.nodes this).nodeType = .Directory then some (.EISDIR, s)
  else s.createIn dir name copied fun s i => s.initLink i pid dir name

def mkdir (s : Vfs) (this : Slot) (pid : UInt16) (name : CStr) (copied : Bool) :
    Option (ErrNo × Vfs) :=
  if (s.nodes this).nodeType ≠ .Directory then some (.ENOTDIR, s)
  else s.createIn this name copied fun s i => s.initDir i pid (some this) name

/-- `symlink`, by `createFile` with `needCopy`. Writing the target does nothing. -/
def symlink (s : Vfs) (this : Slot) (pid : UInt16) (name : CStr) (copied : Bool) :
    Option (ErrNo × Vfs) :=
  if (s.nodes this).nodeType ≠ .Directory then some (.ENOTDIR, s)
  else s.createIn this name copied fun s i =>
    (s.initFile i pid (some this) name).setNode i fun n => { n with needReleased := true }

/-- `createdev`, which copies the name only if `needCopy`. -/
def createdev (s : Vfs) (this : Slot) (pid : UInt16) (name : CStr) (needCopy copied : Bool) :
    Option (ErrNo × Vfs) :=
  if (s.nodes this).nodeType ≠ .Directory then some (.ENOTDIR, s)
  else s.createIn this name (!needCopy || copied) fun s i =>
    (s.initDevice i pid this name).setNode i fun n =>
      { n with needReleased := needCopy, dev := true }

/-! ## Destroying nodes -/

/-- `detach`. -/
def detach (s : Vfs) (held : Option Slot) (force : Bool) (i : Slot) : Option Vfs :=
  if (s.nodes i).refCount = 0 ∨ force then
    match (s.nodes i).parent with
    -- The parent is not checked for null.
    | none => none
    | some dir => do
      let s ← s.removeChild held dir i
      let s := (s.setNode i fun n => { n with parent := none }).invalidate i
      some (if (s.nodes i).needReleased then s.setNode i fun n => { n with name := none } else s)
  else some s

/-- `destroyObjNode`. -/
def destroyObjNode (s : Vfs) (i : Slot) : Vfs := s.deallocate i

/-- `doUnref`, with `removeChildren`, which applies it to the directories in a directory. The first
    argument bounds the depth of the recursion. -/
def doUnref : ℕ → Vfs → Option Slot → Bool → Slot → Option Vfs
  | 0, _, _, _, _ => none
  | depth + 1, s, held, force, i =>
    let s := if force then s.setNode i fun n => { n with refCount := 0 } else s
    if (s.nodes i).refCount = 0 then do
      let s ←
        if (s.nodes i).nodeType = .Directory then
          -- The other list, of the files, is not gone through.
          (s.lists (.dirs i)).foldlM (fun s child => doUnref depth s held true child) s
        else some s
      let s ← s.detach held force i
      some (s.destroyObjNode i)
    else some s

/-- The recursion goes down the tree, so it is no deeper than the pool is large. -/
def maxDepth : ℕ := 201

def unref (s : Vfs) (i : Slot) : Option Vfs :=
  doUnref maxDepth (s.setNode i (·.addRefCount (2 ^ 32 - 1))) none false i

/-- `destroy`, holding the spinlock of the node. -/
def destroy (s : Vfs) (i : Slot) : Option Vfs :=
  doUnref maxDepth (s.setNode i fun n => { n with dev := false }) (some i) true i

def unlink (s : Vfs) (this : Slot) (pid : UInt16) (name : CStr) : Option (ErrNo × Vfs) :=
  if (s.nodes this).nodeType ≠ .Directory then some (.ENOTDIR, s)
  else do
    match ← s.findFileInDir this name.1 (CStr.strlen name.1) with
    | none => some (.ENOENT, s)
    | some n =>
      if (s.nodes n).canRemove pid then do
        let s ← (s.ref n).destroy n
        -- The node is back in the pool by now.
        let s ← s.unref n
        some (.ENONE, s)
      else some (.EPERM, s)

/-- What `rmdir` does with the node it has found, before it drops its reference. -/
def rmdirNode (s : Vfs) (pid : UInt16) (dir : Slot) : Option (ErrNo × Vfs) :=
  if (s.nodes dir).nodeType ≠ .Directory then some (.ENOTDIR, s)
  else if (s.nodes dir).ower = kernelPid ∨ !(s.nodes dir).canRemove pid then some (.EPERM, s)
  else if s.isEmptyDir dir then do
    let s ← s.destroy dir
    some (.ENONE, s)
  else some (.ENOTEMPTY, s)

/-- `rmdir`. The directory is looked for among the files. -/
def rmdir (s : Vfs) (this : Slot) (pid : UInt16) (name : CStr) : Option (ErrNo × Vfs) :=
  if (s.nodes this).nodeType ≠ .Directory then some (.ENOTDIR, s)
  else do
    match ← s.findFileInDir this name.1 (CStr.strlen name.1) with
    | none => some (.ENOENT, s)
    | some dir => do
      let (res, s) ← (s.ref dir).rmdirNode pid dir
      let s ← s.unref dir
      some (res, s)

/-! ## Renaming -/

/-- `VFSDir::renameChild`. The length used in the search is that of the new name. -/
def renameChild (s : Vfs) (this : Slot) (pid : UInt16) (oldName : CStr) (newDir : Slot)
    (newName : CStr)
    (copied : Bool) : Option (Option Slot × Vfs) :=
  let nameLen := CStr.strlen newName.1
  if copied then do
    match ← s.findAllInDir this oldName.1 nameLen with
    | none => some (none, s)
    | some target =>
      if (s.nodes target).canRemove pid then do
        let s ←
          if newDir ≠ this then do
            let s ← s.detach none true target
            -- `_parent` remains null.
            some (s.addChild newDir target)
          else some (if (s.nodes target).needReleased then
            s.setNode target fun n => { n with name := none } else s)
        some (some target,
          s.setNode target fun n => { n with name := some newName, nameLen := nameLen })
      else some (none, s)
  else some (none, s)

/-! ## The file system -/

/-- The directories of `VFS::init`, in the order in which it allocates them. -/
def rootNode : Slot := 0

@[inherit_doc rootNode] def rootUserNode : Slot := 1

@[inherit_doc rootNode] def homeNode : Slot := 2

@[inherit_doc rootNode] def devNode : Slot := 3

@[inherit_doc rootNode] def tmpNode : Slot := 4

/-- `VFSManager::init`, in zeroed memory. -/
def initManager (ownInit : Bool) : Vfs where
  nodes _ := ⟨none, 0, 0, 0, false, none, .Invalid, false⟩
  lists h := match h with
    | .free => List.finRange 200
    | .dirs _ => []
    | .files _ => []
  allocatedCount := 0
  fsDescTable _ := none
  ownInit := ownInit

/-- The first five allocations give the directories above. -/
def initAllocated (ownInit : Bool) : Vfs :=
  (initManager ownInit).allocate.1.allocate.1.allocate.1.allocate.1.allocate.1

/-- `VFS::init`, with the `init` of the class of the nodes, or without. -/
def start (ownInit : Bool) : Vfs :=
  let s := (initAllocated ownInit).initDir rootNode kernelPid none (.ofChars [] (by decide))
  let s := s.initDir rootUserNode kernelPid (some rootNode)
    (.ofChars ['r', 'o', 'o', 't'] (by decide))
  let s := s.initDir homeNode kernelPid (some rootNode) (.ofChars ['h', 'o', 'm', 'e'] (by decide))
  let s := s.initDir devNode kernelPid (some rootNode) (.ofChars ['d', 'e', 'v'] (by decide))
  s.initDir tmpNode kernelPid (some rootNode) (.ofChars ['t', 'm', 'p'] (by decide))

/-- `VFS::init`, as it is. -/
def init : Vfs := start false

/-- `VFS::addDev`. -/
def addDev (s : Vfs) (name : CStr) (needCopy copied : Bool) : Option (ErrNo × Vfs) :=
  s.createdev devNode (s.nodes devNode).ower name needCopy copied

/-- `VFS::deleteDev`. The driver is told first, by way of `_dev`. -/
def deleteDev (s : Vfs) (name : CStr) : Option (ErrNo × Vfs) := do
  match ← s.findFileInDir devNode name.1 (CStr.strlen name.1) with
  | none => some (.ENODEV, s)
  | some vDev =>
    if (s.nodes vDev).dev then do
      let s ← s.destroy vDev
      some (.ENONE, s)
    else none

end Vfs

/-- The calls. -/
inductive VfsOp
  | mkdir (this : Slot) (pid : UInt16) (name : CStr) (copied : Bool)
  | symlink (this : Slot) (pid : UInt16) (name : CStr) (copied : Bool)
  | link (this : Slot) (pid : UInt16) (dir : Slot) (name : CStr) (copied : Bool)
  | createdev (this : Slot) (pid : UInt16) (name : CStr) (needCopy copied : Bool)
  | addDev (name : CStr) (needCopy copied : Bool)
  | unlink (this : Slot) (pid : UInt16) (name : CStr)
  | rmdir (this : Slot) (pid : UInt16) (name : CStr)
  | deleteDev (name : CStr)
  | destroy (this : Slot)
  | renameChild (this : Slot) (pid : UInt16) (oldName : CStr) (newDir : Slot) (newName : CStr)
    (copied : Bool)

/-- What a call returns. -/
inductive VfsResult
  | err (e : ErrNo)
  | node (i : Option Slot)
  | void
  deriving DecidableEq

namespace Vfs

/-- A call, with what it returns. -/
def call (s : Vfs) : VfsOp → Option (VfsResult × Vfs)
  | .mkdir this pid name copied => (s.mkdir this pid name copied).map (.map .err id)
  | .symlink this pid name copied => (s.symlink this pid name copied).map (.map .err id)
  | .link this pid dir name copied => (s.link this pid dir name copied).map (.map .err id)
  | .createdev this pid name needCopy copied =>
    (s.createdev this pid name needCopy copied).map (.map .err id)
  | .addDev name needCopy copied => (s.addDev name needCopy copied).map (.map .err id)
  | .unlink this pid name => (s.unlink this pid name).map (.map .err id)
  | .rmdir this pid name => (s.rmdir this pid name).map (.map .err id)
  | .deleteDev name => (s.deleteDev name).map (.map .err id)
  | .destroy this => (s.destroy this).map fun s => (.void, s)
  | .renameChild this pid oldName newDir newName copied =>
    (s.renameChild this pid oldName newDir newName copied).map (.map .node id)

def step (s : Vfs) (op : VfsOp) : Option Vfs := (s.call op).map Prod.snd

end Vfs

end DemoOs
