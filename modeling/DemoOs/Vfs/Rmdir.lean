import DemoOs.Vfs.Names
import DemoOs.Vfs.Pool

/-!
# Removing a directory

`rmdir` should remove a directory that has no children, and give the reason if there is none to
remove (`RemovesDir`). In the code there are no directories (`Flat`), so that it always returns
`ENOTDIR`, which is the reason just if there is a child of the name. If there are directories, it
looks for the name among the files, and never finds a directory: it returns `ENOTDIR` if there is a
file of the name, and else `ENOENT` (`Tree.rmdir_eq`). So it does what it should where there is
nothing to remove, and one of these is the reason (`rmdir_iff`).
-/

namespace DemoOs

namespace Vfs

open Family

variable {s s' : Vfs} {d i : Slot} {name : CStr} {pid : UInt16} {copied : Bool}

/-- The child `i` of the directory is a directory of this name. -/
def DirOf (s : Vfs) (d : Slot) (name : CStr) (i : Slot) : Prop :=
  i ∈ s.children d ∧ (s.nodes i).name = some name ∧ (s.nodes i).nodeType = .Directory

/-- The directories that `rmdir` should remove. -/
def Removable (s : Vfs) (d : Slot) (name : CStr) (i : Slot) : Prop :=
  DirOf s d name i ∧ (s.nodes i).ower ≠ kernelPid ∧ Leaf s i

/-- The reasons not to remove a directory. -/
def Reason (s : Vfs) (d : Slot) (name : CStr) : ErrNo → Prop
  | .ENOENT => ¬s.Taken d name
  | .ENOTDIR => ∃ i ∈ s.children d, (s.nodes i).name = some name ∧ (s.nodes i).nodeType ≠ .Directory
  | .EPERM => ∃ i, DirOf s d name i ∧ (s.nodes i).ower = kernelPid
  | .ENOTEMPTY => ∃ i, DirOf s d name i ∧ (s.nodes i).ower ≠ kernelPid ∧ ¬Leaf s i
  | _ => False

/-- `rmdir` removes a directory if there is one to be removed, and else changes nothing and returns
    a reason. -/
def RemovesDir (s : Vfs) (d : Slot) (pid : UInt16) (name : CStr) : Prop :=
  ∃ e s', s.rmdir d pid name = some (e, s') ∧ (e = .ENONE ↔ ∃ i, Removable s d name i) ∧
    (e = .ENONE → ∃ i, Removable s d name i ∧ Freed s s' i) ∧
    (e ≠ .ENONE → s' = s ∧ Reason s d name e)

/-- The tree and the pool are those of `s` again, up to the order of the free nodes and what is left
    in them. -/
structure Restored (s s' : Vfs) : Prop where
  free : (s'.lists .free).Perm (s.lists .free)
  lists : ∀ h ≠ .free, s'.lists h = s.lists h
  nodes : ∀ j ∉ s.lists .free, s'.nodes j = s.nodes j
  count : s'.allocatedCount = s.allocatedCount
  table : s'.fsDescTable = s.fsDescTable

/-- A directory that is made and removed leaves the tree and the pool as they were. -/
def RoundTrips (s : Vfs) (d : Slot) (pid : UInt16) (name : CStr) (copied : Bool) : Prop :=
  ∀ s₁, s.mkdir d pid name copied = some (.ENONE, s₁) →
    ∃ s', s₁.rmdir d pid name = some (.ENONE, s') ∧ Restored s s'

/-! ## What it does -/

theorem Tree.fileNamed_eq_none_iff (hs : Tree s) :
    s.fileNamed d name.1 (CStr.strlen name.1) = none ↔
      ¬(name.1 ≠ [] ∧ ∃ i ∈ s.lists (.files d), (s.nodes i).name = some name) := by
  rw [← hs.found_iff, Option.not_isSome_iff_eq_none]

theorem Tree.rmdir_ne (hs : Tree s) (hd : (s.nodes d).nodeType = .Directory) :
    ∃ e, e ≠ .ENONE ∧ s.rmdir d pid name = some (e, s) := by
  refine ⟨_, ?_, hs.rmdir_eq hd⟩
  split_ifs <;> nofun

/-- Nothing is removed, so there should be nothing to remove, and the reason should be one of the
    two. -/
theorem Tree.removesDir_iff (hs : Tree s) (hd : (s.nodes d).nodeType = .Directory) :
    RemovesDir s d pid name ↔ (¬∃ i, Removable s d name i) ∧
      ((name.1 ≠ [] ∧ ∃ i ∈ s.lists (.files d), (s.nodes i).name = some name) ∨
      ¬s.Taken d name) := by
  by_cases hfind : s.fileNamed d name.1 (CStr.strlen name.1) = none
  · have hcall : s.rmdir d pid name = some (.ENOENT, s) := by rw [hs.rmdir_eq hd, if_pos hfind]
    have hfile := hs.fileNamed_eq_none_iff.1 hfind
    constructor
    · rintro ⟨e, s', h, hiff, -, hreason⟩
      obtain ⟨rfl, rfl⟩ := Prod.mk.inj (Option.some.inj (hcall.symm.trans h))
      exact ⟨fun hr => (nomatch hiff.2 hr), .inr (hreason nofun).2⟩
    · rintro ⟨hno, h⟩
      exact ⟨_, s, hcall, ⟨nofun, fun hr => absurd hr hno⟩, nofun,
        fun _ => ⟨rfl, h.resolve_left hfile⟩⟩
  · have hcall : s.rmdir d pid name = some (.ENOTDIR, s) := by rw [hs.rmdir_eq hd, if_neg hfind]
    have hfile := not_not.1 (mt hs.fileNamed_eq_none_iff.2 hfind)
    constructor
    · rintro ⟨e, s', h, hiff, -, -⟩
      obtain ⟨rfl, rfl⟩ := Prod.mk.inj (Option.some.inj (hcall.symm.trans h))
      exact ⟨fun hr => (nomatch hiff.2 hr), .inl hfile⟩
    · rintro ⟨hno, -⟩
      obtain ⟨-, i, hi, hname⟩ := hfile
      exact ⟨_, s, hcall, ⟨nofun, fun hr => absurd hr hno⟩, nofun,
        fun _ => ⟨rfl, i, List.mem_append_right _ hi, hname, hs.file_type hi⟩⟩

/-- `mkdir` makes a directory if it finds no file of the name, and has the memory and a node. -/
theorem Tree.mkdir (pid : UInt16) (copied : Bool) (hs : Tree s)
    (hd : (s.nodes d).nodeType = .Directory)
    (hfind : s.fileNamed d name.1 (CStr.strlen name.1) = none) :
    (¬(copied = false ∨ s.lists .free = []) ∧ ∃ s', s.mkdir d pid name copied = some (.ENONE, s') ∧
        Tree s' ∧ (s'.nodes d).nodeType = .Directory) ∨
      ((copied = false ∨ s.lists .free = []) ∧ s.mkdir d pid name copied = some (.ENOMEM, s)) := by
  have hcall : s.mkdir d pid name copied =
      s.createIn d name copied fun s i => s.initDir i pid (some d) name := by
    rw [Vfs.mkdir, if_neg (not_not.2 hd)]
  rw [hcall]
  have hsearch : s.findFileInDir d name.1 (CStr.strlen name.1) = some none :=
    hfind ▸ hs.findFileInDir_eq hd
  cases copied with
  | false => exact .inr ⟨.inl rfl, by simp [createIn, hsearch]⟩
  | true =>
    have hinit : Inits (fun s i => s.initDir i pid (some d) name) d .Directory name := inits_dir pid
    rcases hs.createIn true (hs.not_free hd) hinit with
      ⟨-, hlists, -⟩ | ⟨-, ⟨hsome, -⟩ | ⟨-, h | ⟨i, s', h, hc⟩⟩⟩
    · exact absurd (hs.hasLists hd) hlists
    · simp [hfind] at hsome
    · refine .inr ⟨.inr ?_, h⟩
      cases hfree : s.lists .free with
      | nil => rfl
      | cons i l => simp [createIn, hsearch, createObjNode, allocate, hfree] at h
    · have hne : s.lists .free ≠ [] := List.ne_nil_of_mem hc.free
      exact .inl ⟨by simp [hne], s', h, hs.created hc hd, by rw [hc.nodeType_eq hc.ne_dir.symm, hd]⟩

/-- A directory just made is not removed. -/
theorem Tree.roundTrips_iff (hs : Tree s) (hd : (s.nodes d).nodeType = .Directory)
    (hfresh : ¬s.Taken d name) :
    RoundTrips s d pid name copied ↔ copied = false ∨ s.lists .free = [] := by
  have hfind : s.fileNamed d name.1 (CStr.strlen name.1) = none :=
    hs.fileNamed_eq_none_iff.2 fun ⟨_, i, hi, hname⟩ =>
      hfresh ⟨i, List.mem_append_right _ hi, hname⟩
  rcases hs.mkdir pid copied hd hfind with ⟨hno, s₁, h, hs₁, hd₁⟩ | ⟨hno, h⟩
  · refine iff_of_false (fun hround => ?_) hno
    obtain ⟨s', hcall, -⟩ := hround s₁ h
    obtain ⟨e, he, hcall'⟩ := hs₁.rmdir_ne hd₁
    exact he (Prod.mk.inj (Option.some.inj (hcall'.symm.trans hcall))).1
  · refine iff_of_true (fun s₁ h' => ?_) hno
    exact nomatch h.symm.trans h'

/-- Without directories nothing is to be removed, and that there is none of the name is a reason
    just if there is a child of the name. -/
theorem removesDir_iff_of_flat (hflat : ∀ i, (s.nodes i).nodeType ≠ .Directory) :
    RemovesDir s d pid name ↔ s.Taken d name := by
  have hcall : s.rmdir d pid name = some (.ENOTDIR, s) := if_pos (hflat d)
  have hno : ¬∃ i, Removable s d name i := fun ⟨i, hi, _⟩ => hflat i hi.2.2
  constructor
  · rintro ⟨e, s', h, -, -, hreason⟩
    obtain ⟨rfl, rfl⟩ := Prod.mk.inj (Option.some.inj (hcall.symm.trans h))
    obtain ⟨i, hi, hname, -⟩ := (hreason nofun).2
    exact ⟨i, hi, hname⟩
  · rintro ⟨i, hi, hname⟩
    exact ⟨_, s, hcall, ⟨nofun, fun hr => absurd hr hno⟩, nofun,
      fun _ => ⟨rfl, i, hi, hname, hflat i⟩⟩

/-- **`rmdir` removes a directory** as it should, in the code, just if there is a child of the name;
    and if there are directories, just if there is none to be removed, and there is a file of the
    name or no child at all. It never removes a directory just made. -/
theorem rmdir_iff (pid : UInt16) (name : CStr) (copied : Bool) (hs : Flat s ∨ Tree s)
    (hd : s.ownInit = true → (s.nodes d).nodeType = .Directory) :
    (RemovesDir s d pid name ↔
      (s.ownInit = false ∧ s.Taken d name) ∨
      (s.ownInit = true ∧ (¬∃ i, Removable s d name i) ∧
        ((name.1 ≠ [] ∧ ∃ i ∈ s.lists (.files d), (s.nodes i).name = some name) ∨
        ¬s.Taken d name))) ∧
    (pid ≠ kernelPid → ¬s.Taken d name →
      (RoundTrips s d pid name copied ↔ s.ownInit = false ∨ copied = false ∨
      s.lists .free = [])) := by
  rcases hs with hs | hs
  · rw [hs.ownInit]
    refine ⟨?_, fun _ _ => iff_of_true (fun s₁ h => ?_) (.inl rfl)⟩
    · rw [removesDir_iff_of_flat hs.flat]
      simp only [true_and, Bool.false_eq_true, false_and, or_false]
    · -- Nothing is made.
      rw [Vfs.mkdir, if_pos (hs.flat d)] at h
      cases h
  · have hd := hd hs.ownInit
    rw [hs.ownInit]
    refine ⟨?_, fun _ hfresh => ?_⟩
    · rw [hs.removesDir_iff hd]
      simp only [Bool.true_eq_false, true_and, false_and, false_or]
    · rw [hs.roundTrips_iff hd hfresh]
      simp only [Bool.true_eq_false, false_or]

theorem children_home : ∀ own, (start own).children homeNode = [] := by decide +kernel

theorem not_taken_home {own : Bool} : ¬(start own).Taken homeNode name := by
  rintro ⟨i, hi, -⟩
  exact List.not_mem_nil (children_home own ▸ hi)

/-- The home directory is no directory, as `rmdir` of it tells. And if there are directories, there
    is nothing to be removed in an empty one, and a directory made in it stays. -/
theorem rmdir_home : RemovesDir init rootNode 7 home ∧
    RemovesDir (start true) homeNode 7 (.ofChars ['a'] (by decide)) ∧
    ¬RoundTrips (start true) homeNode 7 (.ofChars ['a'] (by decide)) true := by
  have htaken : init.Taken rootNode home :=
    ⟨homeNode, by decide +kernel, by decide +kernel⟩
  have hflat := rmdir_iff 7 home true (d := rootNode)
    (.inl flat_init) fun h => Bool.noConfusion (flat_init.ownInit.symm.trans h)
  obtain ⟨hremoves, hround⟩ := rmdir_iff 7 (.ofChars ['a'] (by decide)) true (.inr tree_start)
    (d := homeNode) fun _ => (start_nodes true homeNode).1
  refine ⟨hflat.1.2 (.inl ⟨flat_init.ownInit, htaken⟩),
    hremoves.2 (.inr ⟨rfl, ?_, .inr not_taken_home⟩), fun h => ?_⟩
  · rintro ⟨i, ⟨hi, -⟩, -⟩
    exact List.not_mem_nil (children_home true ▸ hi)
  · rcases (hround (by decide) not_taken_home).1 h with h | h | h
    · exact nomatch h
    · exact nomatch h
    · rw [start_free] at h
      exact nomatch h

/-- The home directory has no child `a`, but it is not for this reason that `rmdir` fails. And if
    there are directories, and `a` is made in it, it is not removed. -/
theorem not_removesDir :
    ¬RemovesDir init homeNode 7 (.ofChars ['a'] (by decide)) ∧
    ∃ s, (start true).mkdir homeNode 7 (.ofChars ['a'] (by decide)) true = some (.ENONE, s) ∧
      ¬RemovesDir s homeNode 7 (.ofChars ['a'] (by decide)) := by
  refine ⟨fun h => not_taken_home ((removesDir_iff_of_flat flat_init.flat).1 h), ?_⟩
  have hd : ((start true).nodes homeNode).nodeType = .Directory := (start_nodes true homeNode).1
  have hfind : (start true).fileNamed homeNode (CStr.ofChars ['a'] (by decide)).1
      (CStr.strlen (CStr.ofChars ['a'] (by decide)).1) = none := by decide +kernel
  obtain ⟨-, s, hs, htree, hd'⟩ := (tree_start.mkdir 7 true hd hfind).resolve_right fun h => by
    have hfree : ¬(true = false ∨ (start true).lists .free = []) := by decide +kernel
    exact hfree h.1
  have hfacts : s.lists (.dirs homeNode) = [5] ∧
      (s.nodes 5).name = some (.ofChars ['a'] (by decide)) ∧
      (s.nodes 5).nodeType = .Directory ∧ (s.nodes 5).ower ≠ kernelPid ∧ Leaf s 5 := by
    have hall : ((start true).mkdir homeNode 7 (.ofChars ['a'] (by decide)) true).map (fun r =>
        decide (r.2.lists (.dirs homeNode) = [5] ∧
          (r.2.nodes 5).name = some (.ofChars ['a'] (by decide)) ∧
          (r.2.nodes 5).nodeType = .Directory ∧ (r.2.nodes 5).ower ≠ kernelPid ∧ Leaf r.2 5)) =
        some true := by decide +kernel
    rw [hs] at hall
    exact of_decide_eq_true (Option.some.inj hall)
  obtain ⟨hdirs, hname, htype, hower, hleaf⟩ := hfacts
  refine ⟨s, hs, fun h => ?_⟩
  refine ((htree.removesDir_iff hd').1 h).1 ⟨5, ⟨?_, hname, htype⟩, hower, hleaf⟩
  rw [children, hdirs]
  exact List.mem_append_left _ (List.mem_singleton_self 5)

end Vfs

end DemoOs
