import DemoOs.Vfs.Unlink
import DemoOs.Arch.Atomic

/-!
# The owner as a counter

`ref` and `unref` are meant to count the references of a node (`retain`, `release`). `Atomic::add`
is given the address of `_refCount`, and adds to the word there, whose lower half is `_ower`: on
every node the owner is counted up and down, and the counter moves only when there is a carry or a
borrow.

A directory is referenced by its children. They are taken away from the counter itself, so that with
each child that is added the owner goes up by one, and never comes down again
(`ower_of_childSteps`). A directory of the kernel can be deleted once it has got a child.
-/

namespace DemoOs

namespace VfsNode

variable (n : VfsNode)

/-- What is added to the counter is added to the owner. -/
theorem addRefCount_ower (val : ℕ) : (n.addRefCount val).ower = n.ower + .ofNat val := by
  have ho := n.ower.toNat_lt
  rw [addRefCount, ← UInt16.toNat_inj, UInt16.toNat_add, UInt16.toNat_ofNat',
    UInt16.toNat_ofNat', word]
  omega

variable {n}

/-- The owner stays what it is if a multiple of 2^16 is added. -/
theorem addRefCount_ower_eq_iff {val : ℕ} : (n.addRefCount val).ower = n.ower ↔
    val % 2 ^ 16 = 0 := by
  have ho := n.ower.toNat_lt
  rw [addRefCount_ower, ← UInt16.toNat_inj, UInt16.toNat_add, UInt16.toNat_ofNat']
  omega

/-- The next owner may be deleted as the owner may, unless one of them is the kernel. -/
theorem isDeletable_addRefCount_iff :
    (n.addRefCount 1).isDeletable = n.isDeletable ↔ n.ower ≠ kernelPid ∧ n.ower ≠ 0xffff := by
  have ho := n.ower.toNat_lt
  have hnext : (n.addRefCount 1).ower = kernelPid ↔ n.ower = 0xffff := by
    rw [addRefCount_ower, ← UInt16.toNat_inj, ← UInt16.toNat_inj, UInt16.toNat_add,
      UInt16.toNat_ofNat']
    change _ = 0 ↔ _ = 65535
    omega
  have hkernel : ¬(n.ower = kernelPid ∧ n.ower = 0xffff) := by
    rintro ⟨h, h'⟩
    exact absurd (h.symm.trans h') (by decide : kernelPid ≠ 0xffff)
  rw [isDeletable, isDeletable, decide_eq_decide]
  tauto

/-- The word `_refCount` is in. -/
def countWord (n : VfsNode) : BitVec 32 := n.refCount.toBitVec ++ n.ower.toBitVec

theorem toNat_countWord : n.countWord.toNat = n.refCount.toNat * 2 ^ 16 + n.ower.toNat := by
  rw [countWord, BitVec.toNat_append, ← Nat.shiftLeft_add_eq_or_of_lt n.ower.toBitVec.isLt,
    Nat.shiftLeft_eq]
  rfl

theorem countWord_addRefCount (val : ℕ) :
    (n.addRefCount val).countWord = n.countWord + BitVec.ofNat 32 val := by
  rw [← BitVec.toNat_inj, BitVec.toNat_add, toNat_countWord, toNat_countWord, BitVec.toNat_ofNat,
    addRefCount, UInt16.toNat_ofNat', UInt16.toNat_ofNat', word]
  omega

/-- What is added to the counter is what `Atomic::add` adds to the word, if what its failing turns
    have loaded does not come on top. -/
theorem add_countWord {failed : List (BitVec 32)} (hfailed : failed.sum = 0) (val : ℕ) :
    Atomic.add (Reservation.attempts failed n.countWord) (BitVec.ofNat 32 val) =
      some ((n.addRefCount val).countWord, n.countWord) := by
  rw [Atomic.add_attempts, hfailed, add_zero, countWord_addRefCount]

end VfsNode

namespace Vfs

variable {s s' : Vfs} {held : Option Slot} {i j child : Slot} {force : Bool}

/-! ## Frame lemmas -/

/-- No node has got another owner. -/
def SameOwers (s s' : Vfs) : Prop := ∀ j, (s'.nodes j).ower = (s.nodes j).ower

theorem SameOwers.refl (s : Vfs) : SameOwers s s := fun _ => rfl

theorem SameOwers.trans {s'' : Vfs} (h : SameOwers s s') (h' : SameOwers s' s'') :
    SameOwers s s'' :=
  fun j => (h' j).trans (h j)

theorem SameOwers.setNode {f : VfsNode → VfsNode} (h : SameOwers s s')
    (hf : ∀ n, (f n).ower = n.ower) :
    SameOwers s (s'.setNode i f) := by
  intro j
  rw [← h j]
  by_cases hj : j = i
  · subst hj
    rw [setNode_self, hf]
  · rw [setNode_of_ne hj]

theorem SameOwers.delNode {s'' : Vfs} (h : SameOwers s s') (hdel : s'.delNode i = some s'') :
    SameOwers s s'' := by
  unfold Vfs.delNode at hdel
  split_ifs at hdel
  obtain rfl := Option.some.inj hdel
  exact h

/-- The counter of the directory is written as itself. -/
theorem sameOwers_removeChild (h : s.removeChild held i child = some s') : SameOwers s s' := by
  unfold removeChild at h
  split_ifs at h
  have hcount : SameOwers s (s.setNode i fun n => { n with refCount := n.refCount - 1 }) :=
    (SameOwers.refl s).setNode fun _ => rfl
  exact hcount.delNode h

theorem sameOwers_detach (h : s.detach held force i = some s') : SameOwers s s' := by
  unfold detach at h
  split_ifs at h with hzero
  · cases hparent : (s.nodes i).parent with
    | none => simp [hparent] at h
    | some dir =>
      simp only [hparent, Option.bind_eq_bind, Option.bind_eq_some_iff] at h
      obtain ⟨s₁, hremove, h⟩ := h
      obtain rfl := Option.some.inj h
      have horphan : SameOwers s (s₁.setNode i fun n => { n with parent := none }) :=
        (sameOwers_removeChild hremove).setNode fun _ => rfl
      have hinvalid :
          SameOwers s ((s₁.setNode i fun n => { n with parent := none }).invalidate i) :=
        horphan.setNode fun _ => rfl
      split_ifs
      · exact hinvalid.setNode fun _ => rfl
      · exact hinvalid
  · obtain rfl := Option.some.inj h
    exact .refl _

theorem sameOwers_destroyObjNode : SameOwers s (s.destroyObjNode i) := by
  intro j
  by_cases hj : j = i
  · subst hj
    simp [destroyObjNode, deallocate, invalidate, addTail]
  · simp [destroyObjNode, deallocate, invalidate, addTail, setNode_of_ne hj]

/-- However many nodes are destroyed, none gets another owner. -/
theorem sameOwers_doUnref {depth : ℕ} (h : doUnref depth s held force i = some s') :
    SameOwers s s' := by
  induction depth generalizing s s' force i with
  | zero => exact absurd h (by simp [doUnref])
  | succ depth ih =>
    -- The children are gone through in a state that changes with each of them.
    have hchildren : ∀ {l : List Slot} {s s' : Vfs},
        l.foldlM (fun s child => doUnref depth s held true child) s = some s' → SameOwers s s' := by
      intro l
      induction l with
      | nil =>
        intro s s' h
        obtain rfl := Option.some.inj h
        exact .refl _
      | cons child l ihl =>
        intro s s' h
        rw [List.foldlM_cons, Option.bind_eq_bind, Option.bind_eq_some_iff] at h
        obtain ⟨s₁, h₁, h⟩ := h
        exact (ih h₁).trans (ihl h)
    rw [doUnref] at h
    have hforce :
        SameOwers s (if force then s.setNode i fun n => { n with refCount := 0 } else s) := by
      split_ifs
      · exact (SameOwers.refl s).setNode fun _ => rfl
      · exact .refl s
    generalize (if force then s.setNode i fun n => { n with refCount := 0 } else s) = s₁ at h hforce
    dsimp only at h
    split_ifs at h with hzero hdir
    · rw [Option.bind_eq_bind, Option.bind_eq_some_iff] at h
      obtain ⟨s₂, h₂, h⟩ := h
      rw [Option.bind_eq_some_iff] at h
      obtain ⟨s₃, h₃, h⟩ := h
      obtain rfl := Option.some.inj h
      exact ((hforce.trans (hchildren h₂)).trans (sameOwers_detach h₃)).trans
        sameOwers_destroyObjNode
    · rw [Option.bind_eq_bind, Option.bind_eq_some_iff] at h
      obtain ⟨s₂, h₂, h⟩ := h
      obtain rfl := Option.some.inj h₂
      rw [Option.bind_eq_some_iff] at h
      obtain ⟨s₃, h₃, h⟩ := h
      obtain rfl := Option.some.inj h
      exact (hforce.trans (sameOwers_detach h₃)).trans sameOwers_destroyObjNode
    · obtain rfl := Option.some.inj h
      exact hforce

/-- Dropping a reference, whatever becomes of the node, changes its owner. -/
theorem unref_ower (h : s.unref i = some s') : (s'.nodes i).ower ≠ (s.nodes i).ower := by
  rw [sameOwers_doUnref h i, setNode_self, Ne, VfsNode.addRefCount_ower_eq_iff]
  decide

/-! ## Children -/

/-- A child is added to a directory or removed from it. -/
inductive ChildStep
  | add (child : Slot)
  | remove (child : Slot)

def childStep (dir : Slot) (s : Vfs) : ChildStep → Option Vfs
  | .add child => some (s.addChild dir child)
  | .remove child => s.removeChild none dir child

def ChildStep.isAdd : ChildStep → Bool
  | add _ => true
  | remove _ => false

theorem addChild_node : (s.addChild i child).nodes i = (s.nodes i).addRefCount 1 := by
  simp [addChild, addTail, ref]

theorem ower_childStep {step : ChildStep} (h : s.childStep i step = some s') :
    (s'.nodes i).ower = (s.nodes i).ower + .ofNat (cond step.isAdd 1 0) := by
  cases step with
  | add child =>
    obtain rfl := Option.some.inj h
    rw [addChild_node, VfsNode.addRefCount_ower]
    rfl
  | remove child =>
    rw [sameOwers_removeChild h i]
    exact (UInt16.add_zero _).symm

/-- The owner counts the children that have been added, and does not see those removed. -/
theorem ower_of_childSteps {steps : List ChildStep} (h : steps.foldlM (childStep i) s = some s') :
    (s'.nodes i).ower = (s.nodes i).ower + .ofNat (steps.countP ChildStep.isAdd) := by
  induction steps generalizing s with
  | nil =>
    obtain rfl := Option.some.inj h
    exact (UInt16.add_zero _).symm
  | cons step steps ih =>
    rw [List.foldlM_cons, Option.bind_eq_bind, Option.bind_eq_some_iff] at h
    obtain ⟨s₁, h₁, h⟩ := h
    rw [ih h, ower_childStep h₁, List.countP_cons, UInt16.add_assoc, ← UInt16.ofNat_add,
      Nat.add_comm]
    cases step.isAdd <;> rfl

/-! ## What is counted -/

/-- Counting the references of the node, and adding and removing its children, changes its counter
    alone. -/
structure CountsAlone (s : Vfs) (i : Slot) : Prop where
  ref : s.ref i = s.retain i
  unref : s.unref i = s.release i
  ower : ∀ (steps : List ChildStep) s', steps.foldlM (childStep i) s = some s' →
    (s'.nodes i).ower = (s.nodes i).ower
  isDeletable : ∀ (steps : List ChildStep) s', steps.foldlM (childStep i) s = some s' →
    (s'.nodes i).isDeletable = (s.nodes i).isDeletable

/-- It is never so. A reference taken or dropped changes the owner of any node, and so does adding a
    child to any directory, after which it can be deleted as before only if neither owner is the
    kernel. -/
theorem ref_changes_ower (s : Vfs) (i : Slot) :
    ¬s.CountsAlone i ∧ ((s.ref i).nodes i).ower ≠ (s.nodes i).ower ∧
      (∀ s', s.unref i = some s' → (s'.nodes i).ower ≠ (s.nodes i).ower) ∧
      (∀ (steps : List ChildStep) s', steps.foldlM (childStep i) s = some s' →
        (s'.nodes i).ower = (s.nodes i).ower + .ofNat (steps.countP ChildStep.isAdd)) ∧
      ∀ child, ((s.addChild i child).nodes i).isDeletable = (s.nodes i).isDeletable ↔
        (s.nodes i).ower ≠ kernelPid ∧ (s.nodes i).ower ≠ 0xffff := by
  have href : ((s.ref i).nodes i).ower ≠ (s.nodes i).ower := by
    rw [ref, setNode_self, Ne, VfsNode.addRefCount_ower_eq_iff]
    decide
  refine ⟨fun h => ?_, href, fun s' h => unref_ower h, fun steps s' h => ower_of_childSteps h,
    fun child => ?_⟩
  · rw [h.ref, retain, setNode_self] at href
    exact href rfl
  · rw [addChild_node]
    exact VfsNode.isDeletable_addRefCount_iff

/-- The home directory belongs to the kernel until it gets a child. -/
theorem not_countsAlone : ¬init.CountsAlone homeNode ∧ (init.nodes homeNode).isDeletable = false ∧
    ((init.addChild homeNode 5).nodes homeNode).isDeletable = true := by
  have hower : (init.nodes homeNode).ower = 0 := by decide
  have hbefore : (init.nodes homeNode).isDeletable = false := by
    rw [VfsNode.isDeletable, hower]
    rfl
  have hafter : ((init.addChild homeNode 5).nodes homeNode).isDeletable = true := by
    rw [VfsNode.isDeletable, addChild_node, VfsNode.addRefCount_ower, hower]
    rfl
  refine ⟨fun h => ?_, hbefore, hafter⟩
  have hsame := h.isDeletable [.add 5] _ rfl
  rw [hafter, hbefore] at hsame
  exact Bool.noConfusion hsame

end Vfs

end DemoOs
