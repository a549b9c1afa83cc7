import DemoOs.Vfs.Calls
import Mathlib.SetTheory.Cardinal.Finite

/-!
# The pool and the tree

A node of the pool should be free, or be in the tree: reachable from the root, and, unless it is the
root, linked once, into a directory that is in use. The descriptors and the counter should tell the
same (`Agree`). As there are no directories in the code, no node but the root is in one: pool and
tree agree just if all the others have been destroyed. With the `init` of the class of the nodes
there are directories. There are several ways it fails then:

* the files of a directory that is destroyed remain where they are, as `removeChildren` looks at its
  directories only;
* if there are any of these, they are detached from a directory whose spinlock is held;
* `unlink` drops its reference to a node that `destroy` has given back already, and which has no
  parent;
* `deleteDev` takes any node in `/dev` for a device, and the directory to be still there.

As long as a call does not come to that (`Tame`), it returns, and the pool and the tree agree
(`agree_iff_of_run`).
-/

namespace DemoOs

namespace Vfs

open Family

variable {s s' : Vfs} {dir d i j : Slot} {t : VfsNodeType} {name : CStr} {h : NodeHdr} {op : VfsOp}

/-- The nodes that are found in the directories, from the root on. -/
inductive Reachable (s : Vfs) : Slot → Prop
  | root : Reachable s rootNode
  | child {d i : Slot} {h : NodeHdr} : Reachable s d → (s.nodes d).nodeType = .Directory →
      h.dir = some d → i ∈ s.lists h → Reachable s i

/-- A directory in use. -/
def Live (s : Vfs) (d : Slot) : Prop :=
  (s.nodes d).nodeType = .Directory ∧ s.fsDescTable d = some d

/-- The node is on one list only, once, and this is a list of a directory in use. -/
def LinkedOnce (s : Vfs) (i : Slot) : Prop :=
  ∃ h d, h.dir = some d ∧ Live s d ∧ (s.lists h).count i = 1 ∧ ∀ k, i ∈ s.lists k → k = h

/-- The pool and the tree agree. -/
structure Agree (s : Vfs) : Prop where
  slot : ∀ i, (i ∈ s.lists .free ∧ s.fsDescTable i = none) ∨
    ((i ≠ rootNode → LinkedOnce s i) ∧ Reachable s i ∧ s.fsDescTable i = some i)
  count : s.allocatedCount = Nat.card {i // Reachable s i}

/-- The calls, on nodes in use: any but `destroy` of the root. -/
def Allowed (s : Vfs) : VfsOp → Prop
  | .link _ _ dir _ _ => AsDirectory s dir
  | .destroy i => i ≠ rootNode ∧ i ∉ s.lists .free
  | .renameChild .. => False
  | _ => True

/-- The node has no children. -/
def Leaf (s : Vfs) (i : Slot) : Prop := s.lists (.dirs i) = [] ∧ s.lists (.files i) = []

/-- A leaf has no children. -/
theorem Leaf.not_mem (hleaf : Leaf s i) (hh : h.dir = some i) : j ∉ s.lists h := by
  cases h with
  | free => exact nomatch hh
  | dirs d =>
    obtain rfl : d = i := Option.some.inj hh
    exact hleaf.1 ▸ List.not_mem_nil
  | files d =>
    obtain rfl : d = i := Option.some.inj hh
    exact hleaf.2 ▸ List.not_mem_nil

/-- The calls that keep the agreement: only nodes without children are destroyed; if `unlink` finds
    a node it may remove, its owner is 0xffff; and `deleteDev` finds a device, or nothing, in a
    directory. -/
def Tame (s : Vfs) : VfsOp → Prop
  | .destroy i => Leaf s i
  | .unlink this pid name =>
    ∀ n, (s.nodes this).nodeType = .Directory →
      s.fileNamed this name.1 (CStr.strlen name.1) = some n → (s.nodes n).canRemove pid →
      (s.nodes n).ower = 0xffff
  | .deleteDev name =>
    (s.nodes devNode).nodeType = .Directory ∧
      ∀ n, s.fileNamed devNode name.1 (CStr.strlen name.1) = some n → (s.nodes n).dev
  | _ => True

instance : ∀ s op, Decidable (Allowed s op)
  | s, .link _ _ dir _ _ => inferInstanceAs (Decidable (AsDirectory s dir))
  | s, .destroy i => inferInstanceAs (Decidable (i ≠ rootNode ∧ i ∉ s.lists .free))
  | _, .renameChild .. => isFalse id
  | _, .mkdir .. | _, .symlink .. | _, .createdev .. | _, .addDev .. | _, .unlink ..
  | _, .rmdir .. | _, .deleteDev .. => isTrue trivial

instance (s : Vfs) (i : Slot) : Decidable (Leaf s i) := instDecidableAnd

instance : ∀ s op, Decidable (Tame s op)
  | s, .destroy i => inferInstanceAs (Decidable (Leaf s i))
  | _, .unlink .. => inferInstanceAs (Decidable (∀ _, _ → _ → _ → _))
  | _, .deleteDev .. => inferInstanceAs (Decidable (_ ∧ ∀ _, _ → _))
  | _, .mkdir .. | _, .symlink .. | _, .link .. | _, .createdev .. | _, .addDev ..
  | _, .rmdir .. | _, .renameChild .. => isTrue trivial

/-! ## The tree -/

/-- Every node but the root is in a list, and the descriptors and the counter tell which are in
    use. -/
structure Pooled (s : Vfs) : Prop where
  apart : Apart s.lists
  root_not_mem : ∀ h, rootNode ∉ s.lists h
  covered : ∀ i ≠ rootNode, ∃ h, i ∈ s.lists h
  table : ∀ i, s.fsDescTable i = if i ∈ s.lists .free then none else some i
  count : s.allocatedCount + (s.lists .free).length = 200

/-- There are no directories, and every node in use but the root has a parent. -/
structure Flat (s : Vfs) : Prop extends Linked s, Pooled s where
  ownInit : s.ownInit = false
  flat : ∀ i, (s.nodes i).nodeType ≠ .Directory
  parent : ∀ i ∉ s.lists .free, i ≠ rootNode → ∃ d ≠ i, (s.nodes i).parent = some d

/-- The tree: what is in the lists, and where. -/
structure Tree (s : Vfs) : Prop extends Linked s, Pooled s where
  ownInit : s.ownInit = true
  root_type : (s.nodes rootNode).nodeType = .Directory
  dir_type : ∀ {h d i}, h.dir = some d → i ∈ s.lists h → (s.nodes d).nodeType = .Directory
  parent : ∀ {h d i}, h.dir = some d → i ∈ s.lists h → (s.nodes i).parent = some d
  hdr_eq : ∀ {h d i}, h.dir = some d → i ∈ s.lists h → h = .ofType (s.nodes i).nodeType d
  refCount : ∀ {d i}, i ∈ s.lists (.files d) → (s.nodes i).refCount = 1
  reachable : ∀ i ∉ s.lists .free, Reachable s i

/-- Directories have lists. -/
theorem Tree.hasLists (hs : Tree s) (ht : (s.nodes i).nodeType = .Directory) : s.hasLists i := by
  rw [Vfs.hasLists, hs.ownInit, Bool.true_and, decide_eq_true ht]

/-- A search of a directory returns. -/
theorem Tree.findFileInDir_eq {subName : List UInt8} {nameLen : ℕ} (hs : Tree s)
    (ht : (s.nodes i).nodeType = .Directory) :
    s.findFileInDir i subName nameLen = some (s.fileNamed i subName nameLen) :=
  if_pos (.inr (hs.hasLists ht))

/-- Directories are in use. -/
theorem Tree.not_free (hs : Tree s) (ht : (s.nodes i).nodeType = .Directory) : i ∉ s.lists .free :=
  fun hi => hs.blank i hi ht

/-- Children are in use. -/
theorem Tree.ne_free (hs : Tree s) (hh : h.dir = some d) (hi : i ∈ s.lists h) :
    i ∉ s.lists .free := by
  intro hfree
  rw [hs.apart.unique hi hfree] at hh
  exact nomatch hh

/-- A node in the list of files is no directory. -/
theorem Tree.file_type (hs : Tree s) (hi : i ∈ s.lists (.files d)) :
    (s.nodes i).nodeType ≠ .Directory := by
  intro ht
  have heq := hs.hdr_eq (h := .files d) rfl hi
  rw [ht] at heq
  exact nomatch heq

/-- What is reached from the root is in use. -/
theorem Tree.not_free_of_reachable (hs : Tree s) (hi : Reachable s i) : i ∉ s.lists .free := by
  cases hi with
  | root => exact hs.root_not_mem _
  | child _ _ hh hi => exact hs.ne_free hh hi

/-- A file has no children. -/
theorem Tree.leaf (hs : Tree s) (hi : i ∈ s.lists (.files d)) : Leaf s i := by
  constructor
  · exact List.eq_nil_iff_forall_not_mem.2 fun x hx =>
      hs.file_type hi (hs.dir_type (h := .dirs i) rfl hx)
  · exact List.eq_nil_iff_forall_not_mem.2 fun x hx =>
      hs.file_type hi (hs.dir_type (h := .files i) rfl hx)

/-- No node is in itself. -/
theorem Tree.ne_of_mem (hs : Tree s) (hh : h.dir = some d) (hi : i ∈ s.lists h) : d ≠ i := by
  rintro rfl
  have hne {j : Slot} (hj : Reachable s j) : j ≠ d := by
    induction hj with
    | root => exact fun hroot => hs.root_not_mem h (hroot ▸ hi)
    | child _ _ hk hmem ih =>
      rintro rfl
      rw [hs.apart.unique hmem hi, hh] at hk
      exact ih (Option.some.inj hk).symm
  exact hne (hs.reachable d (hs.ne_free hh hi)) rfl

/-- A node in use other than the root is in a directory. -/
theorem Pooled.exists_dir (hs : Pooled s) (hroot : i ≠ rootNode) (hfree : i ∉ s.lists .free) :
    ∃ h d, h.dir = some d ∧ i ∈ s.lists h := by
  obtain ⟨h, hi⟩ := hs.covered i hroot
  cases h with
  | free => exact absurd hi hfree
  | dirs d => exact ⟨_, d, rfl, hi⟩
  | files d => exact ⟨_, d, rfl, hi⟩

/-- In a tree, the nodes in use are those that are reached from the root. -/
theorem Tree.agree (hs : Tree s) : Agree s := by
  refine ⟨fun i => ?_, ?_⟩
  · by_cases hfree : i ∈ s.lists .free
    · exact .inl ⟨hfree, by rw [hs.table, if_pos hfree]⟩
    · refine .inr ⟨fun hroot => ?_, hs.reachable i hfree, by rw [hs.table, if_neg hfree]⟩
      obtain ⟨h, d, hh, hi⟩ := hs.exists_dir hroot hfree
      have hd := hs.dir_type hh hi
      refine ⟨h, d, hh, ⟨hd, ?_⟩, List.count_eq_one_of_mem (hs.apart.nodup h) hi,
        fun k hk => hs.apart.unique hk hi⟩
      rw [hs.table, if_neg (hs.not_free hd)]
  · have hmem (i : Slot) : i ∈ (s.lists .free).toFinsetᶜ ↔ Reachable s i := by
      rw [Finset.mem_compl, List.mem_toFinset]
      exact ⟨hs.reachable i, hs.not_free_of_reachable⟩
    rw [Nat.subtype_card _ hmem, Finset.card_compl, Fintype.card_fin,
      List.toFinset_card_of_nodup (hs.apart.nodup _)]
    have := hs.count
    omega

/-- Nothing but the root is reachable, so that nothing else should be in use. -/
theorem Flat.agree_iff (hs : Flat s) : Agree s ↔ ∀ i ≠ rootNode, i ∈ s.lists .free := by
  have hreach {i : Slot} (hi : Reachable s i) : i = rootNode := by
    induction hi with
    | root => rfl
    | child _ hd => exact absurd hd (hs.flat _)
  constructor
  · intro h i hi
    exact ((h.slot i).resolve_right fun ⟨_, hr, _⟩ => hi (hreach hr)).1
  · intro h
    have hfree (i : Slot) : i ∈ s.lists .free ↔ i ≠ rootNode :=
      ⟨fun hi hroot => hs.root_not_mem _ (hroot ▸ hi), h i⟩
    refine ⟨fun i => ?_, ?_⟩
    · rw [hs.table]
      by_cases hi : i = rootNode
      · exact .inr ⟨fun hne => absurd hi hne, hi ▸ .root, if_neg fun hf => (hfree i).1 hf hi⟩
      · exact .inl ⟨h i hi, if_pos (h i hi)⟩
    · have hmem (i : Slot) : i ∈ ({rootNode} : Finset Slot) ↔ Reachable s i := by
        rw [Finset.mem_singleton]
        exact ⟨fun hi => hi ▸ .root, hreach⟩
      have hlen : (s.lists .free).length = 199 := by
        have hset : (s.lists .free).toFinset = Finset.univ.erase rootNode := by
          ext i
          simp [hfree]
        rw [← List.toFinset_card_of_nodup (hs.apart.nodup _), hset,
          Finset.card_erase_of_mem (Finset.mem_univ _), Finset.card_univ, Fintype.card_fin]
      rw [Nat.subtype_card _ hmem, Finset.card_singleton]
      have := hs.count
      omega

/-! ## Creation -/

/-- One node of the pool is taken. -/
theorem Created.mem_free_iff (hs : Apart s.lists) (hc : Created s s' dir i t name) :
    j ∈ s'.lists .free ↔ j ≠ i ∧ j ∈ s.lists .free := by
  rw [hc.lists, hs.mem_move]
  simp [(NodeHdr.ofType_ne_free t dir).symm]

/-- What was in a list of a directory still is, and the new node is besides. -/
theorem Created.mem_iff (hs : Linked s) (hc : Created s s' dir i t name) (hh : h.dir = some d) :
    j ∈ s'.lists h ↔ (j = i ∧ h = .ofType t dir) ∨ j ∈ s.lists h := by
  rw [hc.lists, hs.apart.mem_move]
  refine or_congr_right (and_iff_right_of_imp fun hj hji => ?_)
  subst hji
  rw [hs.apart.unique hj hc.free] at hh
  exact nomatch hh

/-- What was reached is reached. -/
theorem Created.reachable (hs : Linked s) (hc : Created s s' dir i t name) (hj : Reachable s j) :
    Reachable s' j := by
  induction hj with
  | root => exact .root
  | @child d j h _ hd hh hj ih =>
    refine ih.child ?_ hh ((hc.mem_iff hs hh).2 (.inr hj))
    rw [hc.nodeType_eq fun hdi => hs.blank i hc.free (hdi ▸ hd), hd]

/-- A node is taken out of the pool. -/
theorem Pooled.created (hs : Pooled s) (hc : Created s s' dir i t name) : Pooled s' where
  apart := hc.lists ▸ hs.apart.move _ _
  root_not_mem h hmem := by
    rw [hc.lists, hs.apart.mem_move] at hmem
    rcases hmem with ⟨rfl, -⟩ | ⟨-, hmem⟩
    · exact hs.root_not_mem _ hc.free
    · exact hs.root_not_mem h hmem
  covered j hj := by
    by_cases hji : j = i
    · exact ⟨.ofType t dir, by rw [hc.lists, hs.apart.mem_move]; exact .inl ⟨hji, rfl⟩⟩
    · obtain ⟨h, hj⟩ := hs.covered j hj
      exact ⟨h, by rw [hc.lists, hs.apart.mem_move_of_ne hji]; exact hj⟩
  table j := by
    by_cases hji : j = i
    · rw [hji, hc.table, Function.update_self, if_neg]
      exact fun hfree => ((hc.mem_free_iff hs.apart).1 hfree).1 rfl
    · rw [hc.table, Function.update_of_ne hji, hs.table]
      simp [hc.mem_free_iff hs.apart, hji]
  count := by
    have hlen := length_move_of_mem hc.free (NodeHdr.ofType_ne_free t dir).symm
    have hcount := hs.count
    rw [hc.count, hc.lists, word_eq (by omega)]
    omega

/-- Making a node that is no directory. -/
theorem Flat.created (hs : Flat s) (hc : Created s s' dir i t name)
    (ht : t ≠ .Directory) : Flat s' :=
  { hs.toLinked.created hc, hs.toPooled.created hc with
    ownInit := by rw [hc.ownInit, hs.ownInit]
    flat := fun j => by
      by_cases hji : j = i
      · rw [hji, hc.isNew.nodeType]
        exact ht
      · rw [hc.nodeType_eq hji]
        exact hs.flat j
    parent := fun j hj hroot => by
      by_cases hji : j = i
      · exact ⟨dir, hji ▸ hc.ne_dir.symm, hji ▸ hc.isNew.parent⟩
      · rw [hc.parent_eq hji]
        exact hs.parent j (fun hfree => hj ((hc.mem_free_iff hs.apart).2 ⟨hji, hfree⟩)) hroot }

/-- Making a node in a directory. -/
theorem Tree.created (hs : Tree s) (hc : Created s s' dir i t name)
    (hdir : (s.nodes dir).nodeType = .Directory) : Tree s' := by
  have hlinked := hs.toLinked
  have hne_of_dir {j : Slot} (hj : (s.nodes j).nodeType = .Directory) : j ≠ i :=
    fun hji => hs.not_free hj (hji ▸ hc.free)
  -- A node in a directory is the new one, or one that was there, which is not the new one.
  have hcases {h : NodeHdr} {d j : Slot} (hh : h.dir = some d) (hj : j ∈ s'.lists h) :
      (j = i ∧ h = .ofType t dir ∧ d = dir) ∨ (j ≠ i ∧ j ∈ s.lists h) := by
    rcases (hc.mem_iff hlinked hh).1 hj with ⟨rfl, rfl⟩ | hj
    · rw [NodeHdr.dir_ofType, Option.some_inj] at hh
      exact .inl ⟨rfl, rfl, hh.symm⟩
    · exact .inr ⟨fun hji => hs.ne_free hh hj (hji ▸ hc.free), hj⟩
  refine
    { hlinked.created hc, hs.toPooled.created hc with
      ownInit := by rw [hc.ownInit, hs.ownInit]
      root_type := by rw [hc.nodeType_eq (hne_of_dir hs.root_type), hs.root_type]
      dir_type := ?_
      parent := ?_
      hdr_eq := ?_
      refCount := ?_
      reachable := ?_ }
  · intro h d j hh hj
    have hd : (s.nodes d).nodeType = .Directory := by
      rcases hcases hh hj with ⟨-, -, rfl⟩ | ⟨-, hj⟩
      · exact hdir
      · exact hs.dir_type hh hj
    rw [hc.nodeType_eq (hne_of_dir hd), hd]
  · intro h d j hh hj
    rcases hcases hh hj with ⟨rfl, -, rfl⟩ | ⟨hji, hj⟩
    · exact hc.isNew.parent
    · rw [hc.parent_eq hji, hs.parent hh hj]
  · intro h d j hh hj
    rcases hcases hh hj with ⟨rfl, rfl, rfl⟩ | ⟨hji, hj⟩
    · rw [hc.isNew.nodeType]
    · rw [hc.nodeType_eq hji, ← hs.hdr_eq hh hj]
  · intro d j hj
    rcases hcases rfl hj with ⟨rfl, -, -⟩ | ⟨hji, hj⟩
    · exact hc.isNew.refCount
    · -- The counter of the directory is the one that changes, and it is not among the files.
      have hjdir : j ≠ dir := by
        rintro rfl
        exact hs.file_type hj hdir
      rw [hc.other_eq j hji hjdir, hs.refCount hj]
  · intro j hj
    by_cases hji : j = i
    · have hd : (s'.nodes dir).nodeType = .Directory := by
        rw [hc.nodeType_eq (hne_of_dir hdir), hdir]
      exact .child (hc.reachable hlinked (hs.reachable dir (hs.not_free hdir))) hd
        (NodeHdr.dir_ofType t dir)
          ((hc.mem_iff hlinked (NodeHdr.dir_ofType t dir)).2 (.inl ⟨hji, rfl⟩))
    · exact hc.reachable hlinked (hs.reachable j fun hfree =>
        hj ((hc.mem_free_iff hs.apart).2 ⟨hji, hfree⟩))

/-! ## Removal -/

/-- The node `i` is back on the free list. Of the others, only the counter of its parent changes. -/
structure Freed (s s' : Vfs) (i : Slot) : Prop where
  lists : s'.lists = move s.lists i .free
  count : s'.allocatedCount = wordSub s.allocatedCount 1
  table : s'.fsDescTable = Function.update s.fsDescTable i none
  ownInit : s'.ownInit = s.ownInit
  nodeType : (s'.nodes i).nodeType = .Invalid
  other_eq : ∀ j ≠ i, ∃ r, s'.nodes j = { s.nodes j with refCount := r } ∧
    ((s.nodes i).parent ≠ some j → r = (s.nodes j).refCount)

/-- The other nodes keep their types. -/
theorem Freed.nodeType_eq (hf : Freed s s' i) (hne : j ≠ i) :
    (s'.nodes j).nodeType = (s.nodes j).nodeType := by
  obtain ⟨r, hr, -⟩ := hf.other_eq j hne
  rw [hr]

/-- One node is taken out of its list. -/
theorem Freed.mem_iff (hs : Linked s) (hf : Freed s s' i) (hh : h.dir = some d) :
    j ∈ s'.lists h ↔ j ≠ i ∧ j ∈ s.lists h := by
  have hne : h ≠ .free := by
    rintro rfl
    exact nomatch hh
  rw [hf.lists, hs.apart.mem_move]
  simp [hne]

/-- It is in the pool again. -/
theorem Freed.mem_free_iff (hs : Apart s.lists) (hf : Freed s s' i) :
    j ∈ s'.lists .free ↔ j = i ∨ j ∈ s.lists .free := by
  rw [hf.lists, hs.mem_move]
  by_cases hji : j = i <;> simp [hji]

/-- The way to a node does not lead through one without children. -/
theorem Freed.reachable (hs : Linked s) (hf : Freed s s' i) (hleaf : Leaf s i) (hj : Reachable s j)
    (hne : j ≠ i) : Reachable s' j := by
  induction hj with
  | root => exact .root
  | @child d j h _ hd hh hj ih =>
    have hdi : d ≠ i := by
      rintro rfl
      exact hleaf.not_mem hh hj
    refine (ih hdi).child ?_ hh ((hf.mem_iff hs hh).2 ⟨hne, hj⟩)
    rw [hf.nodeType_eq hdi, hd]

/-- Without the node, every list has what it should. -/
theorem Linked.freed (hs : Linked s) (hf : Freed s s' i) (hleaf : s.ownInit = true → Leaf s i) :
    Linked s' where
  apart := hf.lists ▸ hs.apart.move _ _
  childless hown j hj h hh := by
    rw [hf.ownInit] at hown
    refine List.eq_nil_iff_forall_not_mem.2 fun x hx => ?_
    have hx := ((hf.mem_iff hs hh).1 hx).2
    rcases (hf.mem_free_iff hs.apart).1 hj with rfl | hj
    · exact (hleaf hown).not_mem hh hx
    · exact List.not_mem_nil (hs.childless hown j hj h hh ▸ hx)
  blank j hj := by
    by_cases hji : j = i
    · rw [hji, hf.nodeType]
      exact nofun
    · rw [hf.nodeType_eq hji]
      exact hs.blank j (((hf.mem_free_iff hs.apart).1 hj).resolve_left hji)
  named h hh j hj := by
    rw [hf.lists, hs.apart.mem_move] at hj
    obtain ⟨hji, hj⟩ := hj.resolve_left fun hi => hh hi.2
    obtain ⟨nm, hnm⟩ := hs.named h hh j hj
    obtain ⟨r, hr, -⟩ := hf.other_eq j hji
    exact ⟨nm, hr ▸ hnm⟩

/-- A node is given back to the pool. -/
theorem Pooled.freed (hs : Pooled s) (hf : Freed s s' i) (hroot : i ≠ rootNode)
    (hfree : i ∉ s.lists .free) : Pooled s' where
  apart := hf.lists ▸ hs.apart.move _ _
  root_not_mem h hmem := by
    rw [hf.lists, hs.apart.mem_move_of_ne hroot.symm] at hmem
    exact hs.root_not_mem h hmem
  covered j hj := by
    by_cases hji : j = i
    · exact ⟨.free, (hf.mem_free_iff hs.apart).2 (.inl hji)⟩
    · obtain ⟨h, hj⟩ := hs.covered j hj
      exact ⟨h, by rw [hf.lists, hs.apart.mem_move_of_ne hji]; exact hj⟩
  table j := by
    by_cases hji : j = i
    · rw [hji, hf.table, Function.update_self, if_pos ((hf.mem_free_iff hs.apart).2 (.inl rfl))]
    · rw [hf.table, Function.update_of_ne hji, hs.table]
      simp [hf.mem_free_iff hs.apart, hji]
  count := by
    have hlen := length_move_self hfree
    have hcount := hs.count
    have hle : (move s.lists i .free .free).length ≤ 200 := by
      have := (hs.apart.move i .free).nodup .free
      simpa using this.length_le_card
    rw [hf.count, hf.lists, wordSub_eq (by omega) (by omega)]
    omega

/-- Of the code, in which there are no directories. -/
theorem Flat.freed (hs : Flat s) (hf : Freed s s' i) (hroot : i ≠ rootNode)
    (hfree : i ∉ s.lists .free) : Flat s' :=
  { hs.toLinked.freed hf fun hown => Bool.noConfusion (hs.ownInit.symm.trans hown),
    hs.toPooled.freed hf hroot hfree with
    ownInit := by rw [hf.ownInit, hs.ownInit]
    flat := fun j => by
      by_cases hji : j = i
      · rw [hji, hf.nodeType]
        exact nofun
      · rw [hf.nodeType_eq hji]
        exact hs.flat j
    parent := fun j hj hroot => by
      obtain ⟨hji, hj⟩ := not_or.1 (mt (hf.mem_free_iff hs.apart).2 hj)
      obtain ⟨r, hr, -⟩ := hf.other_eq j hji
      rw [hr]
      exact hs.parent j hj hroot }

/-- A leaf is taken off the tree. -/
theorem Tree.freed (hs : Tree s) (hf : Freed s s' i) (hroot : i ≠ rootNode)
    (hfree : i ∉ s.lists .free) (hleaf : Leaf s i) : Tree s' := by
  have hlinked := hs.toLinked
  refine
    { hlinked.freed hf fun _ => hleaf, hs.toPooled.freed hf hroot hfree with
      ownInit := by rw [hf.ownInit, hs.ownInit]
      root_type := by rw [hf.nodeType_eq hroot.symm, hs.root_type]
      dir_type := ?_
      parent := ?_
      hdr_eq := ?_
      refCount := ?_
      reachable := ?_ }
  · intro h d j hh hj
    have hj := ((hf.mem_iff hlinked hh).1 hj).2
    rw [hf.nodeType_eq fun hdi => hleaf.not_mem (hdi ▸ hh) hj, hs.dir_type hh hj]
  · intro h d j hh hj
    obtain ⟨hji, hj⟩ := (hf.mem_iff hlinked hh).1 hj
    obtain ⟨r, hr, -⟩ := hf.other_eq j hji
    rw [hr, ← hs.parent hh hj]
  · intro h d j hh hj
    obtain ⟨hji, hj⟩ := (hf.mem_iff hlinked hh).1 hj
    rw [hf.nodeType_eq hji, ← hs.hdr_eq hh hj]
  · intro d j hj
    obtain ⟨hji, hj⟩ := (hf.mem_iff hlinked (d := d) rfl).1 hj
    obtain ⟨r, hr, hkeep⟩ := hf.other_eq j hji
    rw [hr, ← hs.refCount hj]
    -- The parent of the node is a directory, and not among the files.
    refine hkeep fun hparent => hs.file_type hj ?_
    obtain ⟨k, e, hk, hi⟩ := hs.exists_dir hroot hfree
    obtain rfl : e = j := Option.some.inj ((hs.parent hk hi).symm.trans hparent)
    exact hs.dir_type hk hi
  · -- No way leads through the node that is gone, as it had no children.
    intro j hj
    obtain ⟨hji, hj⟩ := not_or.1 (mt (hf.mem_free_iff hs.apart).2 hj)
    exact hf.reachable hlinked hleaf (hs.reachable j hj) hji

/-- `deallocate`, of a node that has been detached. -/
theorem Detached.freed {s₀ : Vfs} (hd : Detached s s' dir i)
    (hparent : (s₀.nodes i).parent = some dir)
    (hlists : s.lists = s₀.lists) (hcount : s.allocatedCount = s₀.allocatedCount)
    (htable : s.fsDescTable = s₀.fsDescTable) (hown : s.ownInit = s₀.ownInit)
    (hnodes : ∀ j ≠ i, s.nodes j = s₀.nodes j) : Freed s₀ (s'.destroyObjNode i) i where
  lists := by
    funext h
    by_cases hh : h = .free
    · subst hh
      simp [destroyObjNode, deallocate, invalidate, addTail, setList, hd.lists, hlists, move_self]
    · simp [destroyObjNode, deallocate, invalidate, addTail, setList, hd.lists, hlists,
        move_of_ne hh, Function.update_of_ne hh]
  count := by simp [destroyObjNode, deallocate, invalidate, addTail, hd.count, hcount]
  table := by simp [destroyObjNode, deallocate, invalidate, addTail, hd.table, htable]
  ownInit := by simp [destroyObjNode, deallocate, invalidate, addTail, hd.ownInit, hown]
  nodeType := by simp [destroyObjNode, deallocate, invalidate]
  other_eq j hj := by
    have hkeep : (s'.destroyObjNode i).nodes j = s'.nodes j := by
      simp [destroyObjNode, deallocate, invalidate, addTail, setNode_of_ne hj]
    rw [hkeep, ← hnodes j hj]
    by_cases hjd : j = dir
    · subst hjd
      exact ⟨_, hd.dir_eq, fun hne => absurd hparent hne⟩
    · exact ⟨_, hd.other_eq j hj hjd, fun _ => rfl⟩

/-- A node without directories in it is destroyed. -/
theorem exists_destroy (hi : i ∈ s.lists h) (hne : d ≠ i) (hparent : (s.nodes i).parent = some d)
    (hdirs : (s.nodes i).nodeType = .Directory → s.lists (.dirs i) = []) :
    ∃ s', s.destroy i = some s' ∧ Freed s s' i ∧ (s'.nodes i).refCount = 0 ∧
      (s'.nodes i).ower = (s.nodes i).ower := by
  let s₁ :=
    (s.setNode i fun n => { n with dev := false }).setNode i fun n => { n with refCount := 0 }
  have hs₁ : s₁.nodes i = { s.nodes i with dev := false, refCount := 0 } := by simp [s₁]
  have hheld : (some i : Option Slot) ≠ some d := fun h => hne (Option.some.inj h).symm
  obtain ⟨s₂, hdetach, hdet⟩ := exists_detach (s := s₁) (i := i) (hs₁ ▸ hparent) hne hheld hi
  refine ⟨s₂.destroyObjNode i, ?_, hdet.freed hparent rfl rfl rfl rfl fun j hj => ?_, ?_⟩
  · -- There are no directories in the node, so that nothing is done before it is detached.
    have hunref : doUnref maxDepth (s.setNode i fun n => { n with dev := false }) (some i) true i =
        (s₁.detach (some i) true i).bind fun s => some (s.destroyObjNode i) := by
      rw [maxDepth, doUnref]
      by_cases htype : (s.nodes i).nodeType = .Directory
      · simp [s₁, htype, hdirs htype]
      · simp [s₁, htype]
    rw [destroy, hunref, hdetach, Option.bind_some]
  · simp [s₁, setNode_of_ne hj]
  · obtain ⟨nm, hnm⟩ := hdet.node_eq
    simp [destroyObjNode, deallocate, invalidate, addTail, hnm, hs₁]

/-! ## References -/

/-- A reference that is taken and dropped leaves no trace. -/
theorem addRefCount_addRefCount (n : VfsNode) : (n.addRefCount 1).addRefCount (2 ^ 32 - 1) = n := by
  have hr := n.refCount.toNat_lt
  have ho := n.ower.toNat_lt
  have hword : word ((n.addRefCount 1).refCount.toNat * 2 ^ 16 + (n.addRefCount 1).ower.toNat +
      (2 ^ 32 - 1)) = n.refCount.toNat * 2 ^ 16 + n.ower.toNat := by
    simp only [VfsNode.addRefCount, UInt16.toNat_ofNat', word]
    omega
  have hrefCount :
      UInt16.ofNat ((n.refCount.toNat * 2 ^ 16 + n.ower.toNat) / 2 ^ 16) = n.refCount := by
    rw [← UInt16.toNat_inj, UInt16.toNat_ofNat']
    omega
  have hower : UInt16.ofNat (n.refCount.toNat * 2 ^ 16 + n.ower.toNat) = n.ower := by
    rw [← UInt16.toNat_inj, UInt16.toNat_ofNat']
    omega
  rw [VfsNode.addRefCount, hword, hrefCount, hower]
  cases n
  rfl

/-- A reference is dropped that is not the last. -/
theorem unref_of_ne_zero (hne : ((s.nodes i).addRefCount (2 ^ 32 - 1)).refCount ≠ 0) :
    s.unref i = some (s.setNode i (·.addRefCount (2 ^ 32 - 1))) := by
  rw [unref, maxDepth, doUnref]
  simp only [Bool.false_eq_true, if_false, setNode_self]
  rw [if_neg hne]

/-- A reference that is taken and dropped is as if nothing had happened. -/
theorem unref_ref (hne : (s.nodes i).refCount ≠ 0) : (s.ref i).unref i = some s := by
  have hback : ((s.ref i).nodes i).addRefCount (2 ^ 32 - 1) = s.nodes i := by
    rw [ref, setNode_self, addRefCount_addRefCount]
  have hne' : (((s.ref i).nodes i).addRefCount (2 ^ 32 - 1)).refCount ≠ 0 := by rwa [hback]
  rw [unref_of_ne_zero hne', setNode, hback]
  simp [ref, setNode]

/-- A reference to a node of the owner 0xffff is carried into its counter. -/
theorem ower_addRefCount {n : VfsNode} (hower : n.ower = 0xffff) : (n.addRefCount 1).ower = 0 := by
  have ho : n.ower.toNat = 0xffff := by rw [hower]; rfl
  rw [VfsNode.addRefCount, ← UInt16.toNat_inj, UInt16.toNat_ofNat', ho, UInt16.toNat_zero, word]
  omega

/-- Dropping it borrows from the counter, which is not zero then. -/
theorem refCount_addRefCount {n : VfsNode} (hcount : n.refCount = 0) (hower : n.ower = 0) :
    (n.addRefCount (2 ^ 32 - 1)).refCount ≠ 0 := by
  rw [VfsNode.addRefCount, hcount, hower]
  exact (by decide : UInt16.ofNat (word (2 ^ 32 - 1) / 2 ^ 16) ≠ 0)

/-- So a node of this owner is destroyed once only. -/
theorem Tree.unlink_found (hs : Tree s) (hi : i ∈ s.lists (.files d))
    (hower : (s.nodes i).ower = 0xffff) :
    ∃ s₁ s', (s.ref i).destroy i = some s₁ ∧ s₁.unref i = some s' ∧ Freed s s' i := by
  have hne := hs.ne_of_mem (h := .files d) rfl hi
  have hnode : (s.ref i).nodes i = (s.nodes i).addRefCount 1 := setNode_self
  have hparent : ((s.ref i).nodes i).parent = some d := by
    rw [hnode, VfsNode.addRefCount_parent, hs.parent (h := .files d) rfl hi]
  have hdirs : (s.ref i).lists (.dirs i) = [] := (hs.leaf hi).1
  obtain ⟨s₁, hdestroy, hf, hcount, ho⟩ :=
    exists_destroy (s := s.ref i) hi hne hparent fun _ => hdirs
  have hzero : (s₁.nodes i).ower = 0 := by
    rw [ho, hnode, ower_addRefCount hower]
  refine ⟨s₁, _, hdestroy, unref_of_ne_zero (refCount_addRefCount hcount hzero),
    ⟨hf.lists, hf.count, hf.table, hf.ownInit, ?_, fun j hj => ?_⟩⟩
  · rw [setNode_self, VfsNode.addRefCount_nodeType, hf.nodeType]
  · have hkeep : (s.ref i).nodes j = s.nodes j := setNode_of_ne hj
    have hsame : ((s.ref i).nodes i).parent = (s.nodes i).parent :=
      (congrArg VfsNode.parent hnode).trans VfsNode.addRefCount_parent
    rw [setNode_of_ne hj, ← hkeep, ← hsame]
    exact hf.other_eq j hj

/-! ## The calls -/

/-- `destroy`, of a leaf. -/
theorem Tree.destroy (hs : Tree s) (hroot : i ≠ rootNode) (hfree : i ∉ s.lists .free)
    (hleaf : Leaf s i) : ∃ s', s.destroy i = some s' ∧ Tree s' := by
  obtain ⟨h, d, hh, hi⟩ := hs.exists_dir hroot hfree
  obtain ⟨s', hdestroy, hf, -⟩ :=
    exists_destroy hi (hs.ne_of_mem hh hi) (hs.parent hh hi) fun _ => hleaf.1
  exact ⟨s', hdestroy, hs.freed hf hroot hfree hleaf⟩

/-- What is found among the files is a node in use that has no children. -/
theorem Tree.fileNamed (hs : Tree s)
    (hfind : s.fileNamed d name.1 (CStr.strlen name.1) = some i) :
    i ∈ s.lists (.files d) ∧ i ≠ rootNode ∧ i ∉ s.lists .free ∧ Leaf s i := by
  obtain ⟨-, hi, -⟩ := findIn_eq_some hfind
  exact ⟨hi, fun hroot => hs.root_not_mem _ (hroot ▸ hi),
    hs.ne_free (h := .files d) rfl hi, hs.leaf hi⟩

/-- `unlink`, of a leaf, or of what it refuses to remove. -/
theorem Tree.unlink {this : Slot} {pid : UInt16} (hs : Tree s)
    (ht : Tame s (.unlink this pid name)) :
    ∃ r s', s.unlink this pid name = some (r, s') ∧ Tree s' := by
  unfold Vfs.unlink
  by_cases hdir : (s.nodes this).nodeType = .Directory
  · rw [if_neg (not_not.2 hdir), hs.findFileInDir_eq hdir]
    cases hfind : s.fileNamed this name.1 (CStr.strlen name.1) with
    | none => exact ⟨_, s, rfl, hs⟩
    | some n =>
      by_cases hcan : (s.nodes n).canRemove pid
      · obtain ⟨hn, hroot, hfree, hleaf⟩ := hs.fileNamed hfind
        obtain ⟨s₁, s', hdestroy, hunref, hf⟩ := hs.unlink_found hn (ht n hdir hfind hcan)
        refine ⟨.ENONE, s', ?_, hs.freed hf hroot hfree hleaf⟩
        simp [hcan, hdestroy, hunref]
      · exact ⟨.EPERM, s, by simp [hcan], hs⟩
  · exact ⟨.ENOTDIR, s, if_pos hdir, hs⟩

/-- What `rmdir` finds is not a directory, as it looks among the files. -/
theorem Tree.rmdir_eq {this : Slot} {pid : UInt16} (hs : Tree s)
    (hdir : (s.nodes this).nodeType = .Directory) :
    s.rmdir this pid name = some (if s.fileNamed this name.1 (CStr.strlen name.1) = none then
      .ENOENT else .ENOTDIR, s) := by
  unfold Vfs.rmdir
  rw [if_neg (not_not.2 hdir), hs.findFileInDir_eq hdir]
  cases hfind : s.fileNamed this name.1 (CStr.strlen name.1) with
  | none => rfl
  | some n =>
    obtain ⟨hn, -⟩ := hs.fileNamed hfind
    have htype : ((s.ref n).nodes n).nodeType ≠ .Directory := by
      rw [ref, setNode_self, VfsNode.addRefCount_nodeType]
      exact hs.file_type hn
    have hcount : (s.nodes n).refCount ≠ 0 := by
      rw [hs.refCount hn]
      decide
    simp [rmdirNode, htype, unref_ref hcount]

/-- `rmdir` changes nothing, whatever it returns. -/
theorem Tree.rmdir {this : Slot} {pid : UInt16} (hs : Tree s) :
    ∃ r, s.rmdir this pid name = some (r, s) := by
  by_cases hdir : (s.nodes this).nodeType = .Directory
  · exact ⟨_, hs.rmdir_eq hdir⟩
  · refine ⟨.ENOTDIR, ?_⟩
    unfold Vfs.rmdir
    exact if_pos hdir

/-- `deleteDev`. -/
theorem Tree.deleteDev (hs : Tree s) (ht : Tame s (.deleteDev name)) :
    ∃ r s', s.deleteDev name = some (r, s') ∧ Tree s' := by
  unfold Vfs.deleteDev
  rw [hs.findFileInDir_eq ht.1]
  cases hfind : s.fileNamed devNode name.1 (CStr.strlen name.1) with
  | none => exact ⟨_, s, rfl, hs⟩
  | some n =>
    obtain ⟨-, hroot, hfree, hleaf⟩ := hs.fileNamed hfind
    obtain ⟨s', hdestroy, hs'⟩ := hs.destroy hroot hfree hleaf
    exact ⟨.ENONE, s', by simp [ht.2 n hfind, hdestroy], hs'⟩

/-- The directory a node is made in may be given as one. -/
theorem Linked.asDirectory (hs : Linked s) (ha : Allowed s op)
    (hop : creation s op = some (dir, t, name)) : AsDirectory s dir :=
  hs.asDirectory_of_creation hop fun this pid copied heq => by rwa [heq] at ha

/-- The calls that make a node. -/
theorem Tree.creates (hs : Tree s) (ha : Allowed s op) (hop : Creates op) :
    ∃ r s', s.call op = some (r, s') ∧ Tree s' := by
  rcases call_of_creates (s := s) hop with ⟨-, e, hcall⟩ | ⟨dir, t, name, _, _, hcr, -⟩
  · exact ⟨_, s, hcall, hs⟩
  · obtain ⟨hfree, hdir⟩ := hs.toLinked.asDirectory ha hcr
    have hdir := hdir hs.ownInit
    rcases hs.call_of_creation hcr hfree with ⟨-, hlists, -⟩ | ⟨-, ⟨-, h⟩ | ⟨-, h | ⟨i, s', h, hc⟩⟩⟩
    · exact absurd (hs.hasLists hdir) hlists
    · exact ⟨_, s, h, hs⟩
    · exact ⟨_, s, h, hs⟩
    · exact ⟨_, s', h, hs.created hc hdir⟩

/-- A tame call returns, and leaves a tree. -/
theorem Tree.call (hs : Tree s) (ha : Allowed s op) (ht : Tame s op) :
    ∃ r s', s.call op = some (r, s') ∧ Tree s' := by
  cases op with
  | mkdir | symlink | link | createdev | addDev => exact hs.creates ha trivial
  | unlink this pid name =>
    obtain ⟨r, s', h, hs'⟩ := hs.unlink ht
    exact ⟨_, s', by rw [Vfs.call, h]; rfl, hs'⟩
  | rmdir this pid name =>
    obtain ⟨r, h⟩ : ∃ r, s.rmdir this pid name = some (r, s) := hs.rmdir
    exact ⟨_, s, by rw [Vfs.call, h]; rfl, hs⟩
  | deleteDev name =>
    obtain ⟨r, s', h, hs'⟩ := hs.deleteDev ht
    exact ⟨_, s', by rw [Vfs.call, h]; rfl, hs'⟩
  | destroy i =>
    obtain ⟨s', h, hs'⟩ := hs.destroy ha.1 ha.2 ht
    exact ⟨_, s', by rw [Vfs.call, h]; rfl, hs'⟩
  | renameChild => exact ha.elim

/-- Without directories, a call that returns does nothing, or makes a file, or destroys a node. -/
theorem Flat.call {r : VfsResult} (hs : Flat s) (ha : Allowed s op)
    (hcall : s.call op = some (r, s')) :
    Flat s' := by
  -- What fails leaves the state alone.
  have hsame {x : VfsResult × Vfs} (h : s.call op = some x) (hx : x.2 = s) : Flat s' := by
    obtain rfl := Option.some.inj (h.symm.trans hcall)
    exact (show s' = s from hx) ▸ hs
  -- What is created has the type `File`, as all nodes have.
  have hcreates (hop : Creates op) : Flat s' := by
    rcases call_of_creates (s := s) hop with ⟨-, e, h⟩ | ⟨dir, t, name, _, _, hcr, -⟩
    · exact hsame h rfl
    · have hfree := (hs.toLinked.asDirectory ha hcr).1
      rcases hs.call_of_creation hcr hfree with ⟨-, -, h⟩ | ⟨-, ⟨-, h⟩ | ⟨-, h | ⟨i, s₁, h, hc⟩⟩⟩
      · cases h.symm.trans hcall
      · exact hsame h rfl
      · exact hsame h rfl
      · obtain rfl := (Prod.mk.inj (Option.some.inj (h.symm.trans hcall))).2
        exact hs.created hc (initType_ne_directory hs.ownInit)
  -- No node is a directory, so the calls of directories fail or do not return.
  cases op with
  | mkdir | symlink | link | createdev | addDev => exact hcreates trivial
  | unlink this pid name =>
      exact hsame (by rw [Vfs.call, Vfs.unlink, if_pos (hs.flat this)]; rfl) rfl
  | rmdir this pid name => exact hsame (by rw [Vfs.call, Vfs.rmdir, if_pos (hs.flat this)]; rfl) rfl
  | deleteDev name =>
    have hlists : ¬s.hasLists devNode := by simp [Vfs.hasLists, hs.ownInit]
    by_cases hname : name.1 = []
    · have hnone : s.fileNamed devNode name.1 (CStr.strlen name.1) = none := by
        simp [fileNamed, findIn, CStr.strlen, hname]
      refine hsame (x := (.err .ENODEV, s)) ?_ rfl
      rw [Vfs.call, Vfs.deleteDev, findFileInDir_of_or (.inl hname), hnone]
      rfl
    · rw [Vfs.call, Vfs.deleteDev, findFileInDir_of_not_or (not_or.2 ⟨hname, hlists⟩)] at hcall
      cases hcall
  | destroy i =>
    obtain ⟨h, d, -, hi⟩ := hs.exists_dir ha.1 ha.2
    obtain ⟨p, hne, hparent⟩ := hs.parent i ha.2 ha.1
    obtain ⟨s₁, hdestroy, hf, -⟩ := exists_destroy hi hne hparent fun ht => absurd ht (hs.flat i)
    rw [Vfs.call, hdestroy] at hcall
    obtain rfl := (Prod.mk.inj (Option.some.inj hcall)).2
    exact hs.freed hf ha.1 ha.2
  | renameChild => exact ha.elim

/-! ## Runs -/

/-- The pool of `VFS::init`. -/
theorem pooled_start (own : Bool) : Pooled (start own) where
  apart := (linked_start own).apart
  root_not_mem h hmem := by
    rcases mem_start hmem with ⟨-, hle⟩ | ⟨-, -, hne⟩
    · exact absurd hle (by decide)
    · exact hne rfl
  covered i hi := by
    rcases lt_or_ge i 5 with hlt | hge
    · exact ⟨_, mem_start_root.2 ⟨hlt, hi⟩⟩
    · exact ⟨_, mem_start_free.2 hge⟩
  table i := by
    rw [start_fsDescTable own i]
    by_cases hlt : i < 5
    · rw [if_pos hlt, if_neg fun hi => not_lt.2 (mem_start_free.1 hi) hlt]
    · rw [if_neg hlt, if_pos (mem_start_free.2 (not_lt.1 hlt))]
  count := by
    rw [start_free]
    cases own <;> decide +kernel

/-- With the nodes of the code, none is a directory. -/
theorem flat_start : Flat (start false) :=
  { linked_start false, pooled_start false with
    ownInit := start_ownInit false
    flat := fun i => by
      rw [(start_nodes false i).1]
      split_ifs
      · exact nofun
      · exact nofun
    parent := fun i hi hroot => by
      have hlt : i < 5 := not_le.1 fun h => hi (mem_start_free.2 h)
      exact ⟨rootNode, hroot.symm, (start_nodes false i).2.trans (if_pos ⟨hlt, hroot⟩)⟩ }

/-- The state of `VFS::init`. -/
theorem flat_init : Flat init := flat_start

/-- With directories, it is a tree. -/
theorem tree_start : Tree (start true) :=
  { linked_start true, pooled_start true with
    ownInit := rfl
    root_type := (start_nodes true rootNode).1
    dir_type := fun {h d i} hh hi => by
      rcases mem_start hi with ⟨rfl, -⟩ | ⟨rfl, -⟩
      · exact nomatch hh
      · obtain rfl : rootNode = d := Option.some.inj hh
        exact (start_nodes true rootNode).1
    parent := fun {h d i} hh hi => by
      rcases mem_start hi with ⟨rfl, -⟩ | ⟨rfl, hlt⟩
      · exact nomatch hh
      · rw [(start_nodes true i).2, if_pos hlt]
        exact hh
    hdr_eq := fun {h d i} hh hi => by
      rcases mem_start hi with ⟨rfl, -⟩ | ⟨rfl, hlt, -⟩
      · exact nomatch hh
      · obtain rfl : rootNode = d := Option.some.inj hh
        rw [(start_nodes true i).1, if_pos hlt]
    refCount := fun {d i} hi => absurd (start_files true d nofun ▸ hi) List.not_mem_nil
    reachable := fun i hi => by
      by_cases hroot : i = rootNode
      · exact hroot ▸ .root
      · exact .child .root (start_nodes true rootNode).1 (NodeHdr.dir_ofType _ _)
          (mem_start_root.2 ⟨not_le.1 fun h => hi (mem_start_free.2 h), hroot⟩) }

/-- With directories, it stays a tree. -/
theorem tree_of_run (hrun : Run step (fun s op => Allowed s op ∧ Tame s op) (start true) s) :
    Tree s := by
  refine hrun.invariant (fun {s op s'} hs hok hstep => ?_) tree_start
  obtain ⟨r, s₁, hcall, hs₁⟩ := hs.call hok.1 hok.2
  rw [step, hcall] at hstep
  exact Option.some.inj hstep ▸ hs₁

/-- In the code, there is never a directory. -/
theorem flat_of_run (hrun : Run step Allowed init s) : Flat s := by
  refine hrun.invariant (fun {s op s'} hs hok hstep => ?_) flat_init
  obtain ⟨⟨r, s₁⟩, hcall, rfl⟩ := Option.map_eq_some_iff.1 hstep
  exact hs.call hok hcall

/-- **The pool and the tree agree** in a state the code reaches just if everything but the root has
    been destroyed. Were nodes initialised as what they are, they would agree in every state reached
    by tame calls, and these would return. -/
theorem agree_iff_of_run (s : Vfs) :
    (Run step Allowed init s → (Agree s ↔ ∀ i ≠ rootNode, i ∈ s.lists .free)) ∧
      (Run step (fun s op => Allowed s op ∧ Tame s op) (start true) s →
        Agree s ∧ ∀ op, Allowed s op → Tame s op → (s.call op).isSome) := by
  refine ⟨fun hrun => (flat_of_run hrun).agree_iff, fun hrun => ?_⟩
  have hs := tree_of_run hrun
  refine ⟨hs.agree, fun op ha ht => ?_⟩
  obtain ⟨r, s₁, hcall, -⟩ := hs.call ha ht
  rw [hcall, Option.isSome_some]

/-- A directory `a`, and a link in it. -/
def fill : List VfsOp :=
  [.mkdir homeNode 7 (.ofChars ['a'] (by decide)) true,
    .symlink 5 7 (.ofChars ['f'] (by decide)) true]

/-- All but the root are destroyed; or a directory and a link are made, and the link is
    destroyed. -/
theorem agree_destroyed :
    (∃ s, Run step Allowed init s ∧ Agree s) ∧
      ∃ s, Run step (fun s op => Allowed s op ∧ Tame s op) (start true) s ∧ Agree s ∧
        s.lists (.dirs homeNode) = [5] := by
  obtain ⟨s, hrun, hs⟩ := Run.exists_of_execute (by decide +kernel :
    (execute step Allowed init [.destroy 1, .destroy 2, .destroy 3, .destroy 4]).map
      (fun s => s.lists .free) = some ((List.finRange 200).drop 5 ++ [1, 2, 3, 4]))
  obtain ⟨s', hrun', hs'⟩ := Run.exists_of_execute (by decide +kernel :
    (execute step (fun s op => Allowed s op ∧ Tame s op) (start true) (fill ++ [.destroy 6])).map
      (fun s => s.lists (.dirs homeNode)) = some [5])
  refine ⟨⟨s, hrun, ((agree_iff_of_run s).1 hrun).2 ?_⟩, s', hrun',
    ((agree_iff_of_run s').2 hrun').1, hs'⟩
  rw [hs]
  decide +kernel

/-- The home directory is in the root, which is no directory. And if there are directories, and one
    is destroyed first, the link in it stays in its list. -/
theorem not_agree : ¬Agree init ∧ ∃ s, Run step Allowed (start true) s ∧ ¬Agree s := by
  constructor
  · intro h
    have hhome := flat_init.agree_iff.1 h homeNode (by decide)
    exact absurd (mem_start_free.1 hhome) (by decide)
  · obtain ⟨s, hrun, hs⟩ := Run.exists_of_execute (by decide +kernel :
      (execute step Allowed (start true) (fill ++ [.destroy 5])).map
        (fun s => (decide (6 ∈ s.lists .free), s.lists (.files 5), (s.nodes 5).nodeType)) =
          some (false, [6], .Invalid))
    obtain ⟨hfree, hfiles, htype⟩ : 6 ∉ s.lists .free ∧ s.lists (.files 5) = [6] ∧
        (s.nodes 5).nodeType = .Invalid := by
      simpa using hs
    refine ⟨s, hrun, fun h => ?_⟩
    obtain ⟨hlinked, -⟩ := (h.slot 6).resolve_left fun hpool => hfree hpool.1
    obtain ⟨k, d, hk, hlive, -, hunique⟩ := hlinked (by decide)
    obtain rfl : .files 5 = k := hunique _ (by simp [hfiles])
    obtain rfl : 5 = d := Option.some.inj hk
    exact nomatch htype.symm.trans hlive.1

end Vfs

end DemoOs
