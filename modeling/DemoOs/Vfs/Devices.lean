import DemoOs.Lib.Search
import DemoOs.Vfs.PathNames
import DemoOs.Vfs.Pool

/-!
# The registry of the devices

The devices are the files of `/dev`. `addDev` adds one, `deleteDev` deletes it, and `findDevice`
should find, by a path, the device that was added last under its last name and has not been deleted
since. In the code `/dev` is no directory: no device is added, and `findDevice` does not return. If
there are directories, what is in the directory is the registry (`Registered`); but `findDevice`
gives the length of the whole path to the search for the last name, so that it finds a device by its
name only (`findsDevice_iff`).
-/

namespace DemoOs

/-- The tree, and the devices that `_dev` points to, where it is not null. -/
structure Devices (D : Type*) where
  vfs : Vfs
  phyDevice : Slot → Option D

namespace Devices

open Vfs CStr

variable {D : Type*}

/-- `VFSNode::createdev`, with the device. -/
def createdev (v : Devices D) (this : Slot) (pid : UInt16) (name : CStr) (phyDevice : D)
    (needCopy copied : Bool) : Option (ErrNo × Devices D) :=
  if (v.vfs.nodes this).nodeType ≠ .Directory then some (.ENOTDIR, v)
  else (v.vfs.findFileInDir this name.1 (strlen name.1)).map fun found =>
    if found.isSome then (.EEXIST, v)
    else if !needCopy || copied then
      match v.vfs.createObjNode fun s i => (s.initDevice i pid this name).setNode i fun n =>
        { n with needReleased := needCopy, dev := true } with
      | (s, some node) => (.ENONE, ⟨s, Function.update v.phyDevice node (some phyDevice)⟩)
      | (s, none) => (.ENOMEM, { v with vfs := s })
    else (.ENOMEM, v)

/-- `VFS::addDev`. -/
def addDev (v : Devices D) (dev : D) (name : CStr) (needCopy copied : Bool) :
    Option (ErrNo × Devices D) :=
  v.createdev devNode (v.vfs.nodes devNode).ower name dev needCopy copied

/-- `VFS::deleteDev`. -/
def deleteDev (v : Devices D) (name : CStr) : Option (ErrNo × Devices D) :=
  (v.vfs.deleteDev name).map fun (e, s) => (e, { v with vfs := s })

/-- `VFS::findDevice`: the device, or a null pointer; none if it reads in front of the path, or the
    search does not return. The length is that of the path, before `baseName` ends it. -/
def findDevice (v : Devices D) (name : CStr) : Option (Option D) :=
  let nameLen := strlen name.1
  (baseName (name.1 ++ [0]) nameLen).bind fun (subName, buf) =>
    (v.vfs.findFileInDir devNode (stringOf (buf.drop subName)) nameLen).map fun
      | some node => if (v.vfs.nodes node).dev then v.phyDevice node else none
      | none => none

/-- The tree is that of the calls without the devices. -/
theorem vfs_addDev (v : Devices D) (dev : D) (name : CStr) (needCopy copied : Bool) :
    (v.addDev dev name needCopy copied).map (Prod.map id vfs) =
    v.vfs.addDev name needCopy copied := by
  unfold addDev createdev Vfs.addDev Vfs.createdev createIn
  by_cases hdir : (v.vfs.nodes devNode).nodeType ≠ .Directory
  · rw [if_pos hdir, if_pos hdir]
    rfl
  · rw [if_neg hdir, if_neg hdir, Option.map_map]
    refine congrArg (Option.map · _) (funext fun found => ?_)
    dsimp only [Function.comp]
    split_ifs <;> try rfl
    split <;> simp_all

end Devices

/-- The calls. -/
inductive DevOp (D : Type*)
  | addDev (dev : D) (name : CStr) (needCopy copied : Bool)
  | deleteDev (name : CStr)

/-- The devices, and what has been added and not deleted since, by the names. -/
structure Registry (D : Type*) where
  devices : Devices D
  registered : CStr → Option D

namespace Registry

open Vfs Devices CStr

variable {D : Type*}

/-- A call, and what it registers if it succeeds. -/
def step (r : Registry D) : DevOp D → Option (Registry D)
  | .addDev dev name needCopy copied =>
    (r.devices.addDev dev name needCopy copied).map fun (e, v) =>
      ⟨v, if e = .ENONE then Function.update r.registered name (some dev) else r.registered⟩
  | .deleteDev name =>
    (r.devices.deleteDev name).map fun (e, v) =>
      ⟨v, if e = .ENONE then Function.update r.registered name none else r.registered⟩

/-- The names are not empty, and have no separator in them. -/
def Named (_ : Registry D) : DevOp D → Prop
  | .addDev _ name _ _ | .deleteDev name => name.1 ≠ [] ∧ pathSeparator ∉ name.1

instance (r : Registry D) : ∀ op, Decidable (Named r op)
  | .addDev .. | .deleteDev _ => inferInstanceAs (Decidable (_ ∧ _))

/-- There are no devices at the start. -/
def start (ownInit : Bool) : Registry D := ⟨⟨Vfs.start ownInit, fun _ => none⟩, fun _ => none⟩

/-- The last name of a path. -/
def LastName (path n : CStr) : Prop := (pathNames path.1).getLast? = some n.1

instance (path n : CStr) : Decidable (LastName path n) := inferInstanceAs (Decidable (_ = _))

/-- `findDevice` finds the device registered for the last name of the path. -/
def FindsDevice (r : Registry D) (path n : CStr) : Prop :=
  r.devices.findDevice path = some (r.registered n)

variable {r r' : Registry D} {v : Devices D} {s s' : Vfs} {i j : Slot}
    {name n path : CStr} {dev : D}
  {needCopy copied : Bool} {op : DevOp D}

/-! ## The directory -/

/-- What is in the directory is what is registered. -/
structure Registered (r : Registry D) : Prop where
  tree : Tree r.devices.vfs
  dir : (r.devices.vfs.nodes devNode).nodeType = .Directory
  dev : ∀ i ∈ r.devices.vfs.lists (.files devNode), (r.devices.vfs.nodes i).dev
  unique : ∀ i ∈ r.devices.vfs.lists (.files devNode), ∀ j ∈ r.devices.vfs.lists (.files devNode),
    ∀ n, (r.devices.vfs.nodes i).HasName n → (r.devices.vfs.nodes j).HasName n → i = j
  registered : ∀ n dev, r.registered n = some dev ↔ ∃ i ∈ r.devices.vfs.lists (.files devNode),
    (r.devices.vfs.nodes i).HasName n ∧ r.devices.phyDevice i = some dev

theorem registered_start : Registered (start true : Registry D) where
  tree := tree_start
  dir := (start_nodes true devNode).1
  dev i hi := absurd (start_files true devNode nofun ▸ hi) List.not_mem_nil
  unique i hi := absurd (start_files true devNode nofun ▸ hi) List.not_mem_nil
  registered n dev := by
    refine iff_of_false nofun ?_
    rintro ⟨i, hi, -⟩
    exact absurd (start_files true devNode nofun ▸ hi) List.not_mem_nil

/-- A device that is added is the only one of its name. -/
theorem Registered.created (hr : Registered r) (hname : name.1 ≠ [])
    (hfind : r.devices.vfs.fileNamed devNode name.1 (strlen name.1) = none)
    (hc : Created r.devices.vfs s' devNode i .Device name) (dev : D) :
    Registered ⟨⟨s', Function.update r.devices.phyDevice i (some dev)⟩,
      Function.update r.registered name (some dev)⟩ := by
  set s := r.devices.vfs
  have hs : Tree s := hr.tree
  have hmem {j : Slot} : j ∈ s'.lists (.files devNode) ↔ j = i ∨ j ∈ s.lists (.files devNode) := by
    rw [hc.mem_iff hs.toLinked (h := .files devNode) rfl]
    exact or_congr_left (and_iff_left rfl)
  -- The devices that were there are kept as they were, and none of them has the name.
  have hold {j : Slot} (hj : j ∈ s.lists (.files devNode)) : j ≠ i ∧ s'.nodes j = s.nodes j := by
    have hne : j ≠ i := fun h => hs.ne_free (h := .files devNode) rfl hj (h ▸ hc.free)
    exact ⟨hne, hc.other_eq j hne (hs.ne_of_mem (h := .files devNode) rfl hj).symm⟩
  have hfresh {j : Slot} (hj : j ∈ s.lists (.files devNode)) : ¬(s.nodes j).HasName name := fun h =>
    findIn_eq_none_iff.1 hfind (by simpa [strlen] using hname) j hj (h.isNamed_strlen_iff.2 rfl)
  refine
    { tree := hs.created hc hr.dir
      dir := by rw [hc.nodeType_eq hc.ne_dir.symm, hr.dir]
      dev := fun j hj => ?_
      unique := fun j hj k hk n hjn hkn => ?_
      registered := fun n dev' => ?_ }
  · rcases hmem.1 hj with rfl | hj
    · exact hc.isNew.dev
    · rw [(hold hj).2]
      exact hr.dev j hj
  · dsimp only at hj hk hjn hkn
    by_cases hji : j = i
    · subst hji
      by_contra hne
      have hk' := (hmem.1 hk).resolve_left (Ne.symm hne)
      rw [hjn.eq hc.isNew.hasName, (hold hk').2] at hkn
      exact hfresh hk' hkn
    · have hj' := (hmem.1 hj).resolve_left hji
      rw [(hold hj').2] at hjn
      rcases hmem.1 hk with rfl | hk'
      · rw [hkn.eq hc.isNew.hasName] at hjn
        exact absurd hjn (hfresh hj')
      · rw [(hold hk').2] at hkn
        exact hr.unique j hj' k hk' n hjn hkn
  · dsimp only
    -- Only what is registered under the new name changes.
    by_cases hn : n = name
    · subst hn
      rw [Function.update_self]
      constructor
      · intro h
        exact ⟨i, hmem.2 (.inl rfl), hc.isNew.hasName, by rw [Function.update_self, h]⟩
      · rintro ⟨j, hj, hjn, hdev⟩
        rcases hmem.1 hj with rfl | hj
        · rwa [Function.update_self] at hdev
        · rw [(hold hj).2] at hjn
          exact absurd hjn (hfresh hj)
    · rw [Function.update_of_ne hn, hr.registered]
      constructor
      · rintro ⟨j, hj, hjn, hdev⟩
        refine ⟨j, hmem.2 (.inr hj), by rwa [(hold hj).2], ?_⟩
        rwa [Function.update_of_ne (hold hj).1]
      · rintro ⟨j, hj, hjn, hdev⟩
        rcases hmem.1 hj with rfl | hj
        · exact absurd (hjn.eq hc.isNew.hasName) hn
        · rw [(hold hj).2] at hjn
          rw [Function.update_of_ne (hold hj).1] at hdev
          exact ⟨j, hj, hjn, hdev⟩

/-- The device that is deleted was the only one of its name. -/
theorem Registered.freed (hr : Registered r) (hi : i ∈ r.devices.vfs.lists (.files devNode))
    (hname : (r.devices.vfs.nodes i).HasName name) (hf : Freed r.devices.vfs s' i) :
    Registered ⟨⟨s', r.devices.phyDevice⟩, Function.update r.registered name none⟩ := by
  set s := r.devices.vfs
  have hs : Tree s := hr.tree
  have hmem {j : Slot} : j ∈ s'.lists (.files devNode) ↔ j ≠ i ∧ j ∈ s.lists (.files devNode) :=
    hf.mem_iff hs.toLinked rfl
  have hkept {j : Slot} {n : CStr} (hne : j ≠ i) : (s'.nodes j).HasName n ↔
      (s.nodes j).HasName n := by
    obtain ⟨k, hk, -⟩ := hf.other_eq j hne
    rw [hk]
    rfl
  refine
    { tree := hs.freed hf (fun hroot => hs.root_not_mem _ (hroot ▸ hi))
        (hs.ne_free (h := .files devNode) rfl hi) (hs.leaf hi)
      dir := by rw [hf.nodeType_eq (hs.ne_of_mem (h := .files devNode) rfl hi), hr.dir]
      dev := fun j hj => ?_
      unique := fun j hj k hk n hjn hkn => ?_
      registered := fun n dev => ?_ }
  · obtain ⟨hne, hj⟩ := hmem.1 hj
    obtain ⟨k, hk, -⟩ := hf.other_eq j hne
    rw [hk]
    exact hr.dev j hj
  · obtain ⟨hji, hj⟩ := hmem.1 hj
    obtain ⟨hki, hk⟩ := hmem.1 hk
    exact hr.unique j hj k hk n ((hkept hji).1 hjn) ((hkept hki).1 hkn)
  · dsimp only
    -- The node is the only one of its name, so nothing of the name is left.
    by_cases hn : n = name
    · subst hn
      rw [Function.update_self]
      refine iff_of_false nofun ?_
      rintro ⟨j, hj, hjn, -⟩
      obtain ⟨hne, hj⟩ := hmem.1 hj
      exact hne (hr.unique j hj i hi n ((hkept hne).1 hjn) hname)
    · rw [Function.update_of_ne hn, hr.registered]
      constructor
      · rintro ⟨j, hj, hjn, hdev⟩
        have hne : j ≠ i := by
          rintro rfl
          exact hn (hjn.eq hname)
        exact ⟨j, hmem.2 ⟨hne, hj⟩, (hkept hne).2 hjn, hdev⟩
      · rintro ⟨j, hj, hjn, hdev⟩
        obtain ⟨hne, hj⟩ := hmem.1 hj
        exact ⟨j, hj, (hkept hne).1 hjn, hdev⟩

/-- `addDev` is refused, or makes a node for the device. -/
theorem Registered.addDev (hr : Registered r) (dev : D) (name : CStr) (needCopy copied : Bool) :
    (∃ e ≠ .ENONE, r.devices.addDev dev name needCopy copied = some (e, r.devices)) ∨
      ∃ i s', r.devices.vfs.fileNamed devNode name.1 (strlen name.1) = none ∧
        Created r.devices.vfs s' devNode i .Device name ∧
        r.devices.addDev dev name needCopy copied =
          some (.ENONE, ⟨s', Function.update r.devices.phyDevice i (some dev)⟩) := by
  have hs := hr.tree
  unfold Devices.addDev Devices.createdev
  rw [if_neg (not_not.2 hr.dir), hs.findFileInDir_eq hr.dir, Option.map_some]
  cases hfind : r.devices.vfs.fileNamed devNode name.1 (strlen name.1) with
  | some j => exact .inl ⟨.EEXIST, nofun, rfl⟩
  | none =>
    rw [Option.isSome_none, if_neg Bool.false_ne_true]
    by_cases hcopy : (!needCopy || copied) = true
    · rw [if_pos hcopy]
      have hinits : Inits _ devNode .Device name :=
        inits_device (r.devices.vfs.nodes devNode).ower needCopy
      rw [← initType_of_ownInit hs.ownInit (t := .Device)]
      rcases hs.createObjNode (hs.not_free hr.dir) hinits with h | ⟨i, s', h, hc⟩
      · exact .inl ⟨.ENOMEM, nofun, by rw [h]⟩
      · exact .inr ⟨i, s', rfl, hc, by rw [h]⟩
    · exact .inl ⟨.ENOMEM, nofun, by rw [if_neg hcopy]⟩

/-- `deleteDev` finds nothing, or gives the node of the device back. -/
theorem Registered.deleteDev (hr : Registered r) (name : CStr) :
    r.devices.deleteDev name = some (.ENODEV, r.devices) ∨
      ∃ i s', i ∈ r.devices.vfs.lists (.files devNode) ∧ (r.devices.vfs.nodes i).HasName name ∧
        Freed r.devices.vfs s' i ∧
        r.devices.deleteDev name = some (.ENONE, ⟨s', r.devices.phyDevice⟩) := by
  have hs := hr.tree
  unfold Devices.deleteDev Vfs.deleteDev
  rw [hs.findFileInDir_eq hr.dir]
  cases hfind : r.devices.vfs.fileNamed devNode name.1 (strlen name.1) with
  | none => exact .inl rfl
  | some i =>
    obtain ⟨hi, -, -, hleaf⟩ := hs.fileNamed hfind
    obtain ⟨s', hdestroy, hf, -⟩ := exists_destroy hi (hs.ne_of_mem (h := .files devNode) rfl hi)
      (hs.parent (h := .files devNode) rfl hi) fun _ => hleaf.1
    obtain ⟨nm, hnm⟩ := hs.named (.files devNode) nofun i hi
    have hname : nm = name := hnm.isNamed_strlen_iff.1 (findIn_eq_some hfind).2.2
    exact .inr ⟨i, s', hi, hname ▸ hnm, hf, by simp [hr.dev i hi, hdestroy]⟩

/-- A call returns, and what is registered is what is in the directory then. -/
theorem Registered.step (hr : Registered r) (hop : Named r op) :
    ∃ r', Registry.step r op = some r' ∧ Registered r' := by
  cases op with
  | addDev dev name needCopy copied =>
    rw [Registry.step]
    rcases hr.addDev dev name needCopy copied with ⟨e, he, h⟩ | ⟨i, s', hfind, hc, h⟩
    · rw [h, Option.map_some]
      simp only [if_neg he]
      exact ⟨_, rfl, hr⟩
    · rw [h]
      exact ⟨_, rfl, hr.created hop.1 hfind hc dev⟩
  | deleteDev name =>
    rw [Registry.step]
    rcases hr.deleteDev name with h | ⟨i, s', hi, hname, hf, h⟩
    · rw [h]
      exact ⟨_, rfl, hr⟩
    · rw [h]
      exact ⟨_, rfl, hr.freed hi hname hf⟩

theorem registered_of_run (hrun : Run Registry.step Named (start true) r) : Registered r := by
  refine hrun.invariant (fun {r op r'} hr hop hstep => ?_) registered_start
  obtain ⟨r₁, hstep₁, hr₁⟩ := hr.step hop
  exact Option.some.inj (hstep₁.symm.trans hstep) ▸ hr₁

/-- In the code nothing is added, and `deleteDev` does not return. -/
theorem eq_start_of_run (hrun : Run Registry.step Named (start false : Registry D) r) :
    r = start false := by
  refine hrun.invariant (I := fun r => r = start false) (fun {r op r'} hr hop hstep => ?_) rfl
  subst hr
  cases op with
  | addDev dev name needCopy copied =>
    have hadd : (start false : Registry D).devices.addDev dev name needCopy copied =
        some (.ENOTDIR, (start false : Registry D).devices) := by
      unfold Devices.addDev Devices.createdev
      exact if_pos (flat_init.flat devNode)
    rw [Registry.step, hadd] at hstep
    exact (Option.some.inj hstep).symm
  | deleteDev name =>
    have hnone : (start false : Registry D).devices.deleteDev name = none := by
      rw [Devices.deleteDev, Vfs.deleteDev, findFileInDir_of_not_or]
      · rfl
      · rintro (h | h)
        · exact hop.1 h
        · exact Bool.false_ne_true h
    rw [Registry.step, hnone] at hstep
    cases hstep

/-! ## Looking it up -/

/-- By its name a device is found just if it is registered. -/
theorem Registered.find (hr : Registered r) (hn : n.1 ≠ []) :
    (match r.devices.vfs.fileNamed devNode n.1 (strlen n.1) with
      | some node => if (r.devices.vfs.nodes node).dev then r.devices.phyDevice node else none
      | none => none) = r.registered n := by
  have hs := hr.tree
  cases hfind : r.devices.vfs.fileNamed devNode n.1 (strlen n.1) with
  | none =>
    refine Option.ext fun dev => iff_of_false (by simp) fun h => ?_
    obtain ⟨i, hi, hname, -⟩ := (hr.registered n dev).1 h
    have hlen : strlen n.1 ≠ 0 := by simpa [strlen] using hn
    exact findIn_eq_none_iff.1 hfind hlen i hi (hname.isNamed_strlen_iff.2 rfl)
  | some node =>
    obtain ⟨hnode, -⟩ := hs.fileNamed hfind
    obtain ⟨nm, hnm⟩ := hs.named (.files devNode) (by simp) node hnode
    obtain rfl : nm = n := hnm.isNamed_strlen_iff.1 (findIn_eq_some hfind).2.2
    simp only [hr.dev node hnode, if_true]
    refine Option.ext fun dev => ?_
    rw [hr.registered]
    constructor
    · exact fun h => ⟨node, hnode, hnm, h⟩
    · rintro ⟨i, hi, hname, hdev⟩
      rwa [hr.unique node hnode i hi nm hnm hname]

/-- By a longer path none is found. -/
theorem Registered.find_of_lt (hr : Registered r) (hlt : n.1.length < path.1.length) :
    r.devices.vfs.fileNamed devNode n.1 (strlen path.1) = none := by
  refine findIn_eq_none_iff.2 fun _ i hi hnamed => ?_
  obtain ⟨nm, hnm⟩ := hr.tree.named (.files devNode) nofun i hi
  obtain ⟨hlen, htake⟩ := (hnm.isNamed_iff n.2).1 hnamed
  rw [strlen, List.take_of_length_le hlt.le] at htake
  rw [htake, strlen] at hlen
  omega

theorem LastName.length_lt (hn : LastName path n) (hne : path ≠ n) :
    n.1.length < path.1.length := by
  obtain ⟨-, -, seps, -, h | ⟨pre, h⟩⟩ := eq_of_getLast?_pathNames hn
  · have hseps : seps ≠ [] := by
      rintro rfl
      exact hne (Subtype.ext (h.trans (List.append_nil _)))
    have := List.length_pos_iff.2 hseps
    rw [h, List.length_append]
    omega
  · simp [h]
    omega

/-- The name that is looked up is the last one of the path, with the length of the path. -/
theorem findDevice_eq (v : Devices D) (hn : LastName path n) :
    v.findDevice path = (v.vfs.findFileInDir devNode n.1 (strlen path.1)).map fun
      | some node => if (v.vfs.nodes node).dev then v.phyDevice node else none
      | none => none := by
  obtain ⟨hne, hsep, seps, -, hpath⟩ := eq_of_getLast?_pathNames hn
  obtain ⟨c, hc⟩ := List.exists_mem_of_ne_nil n.1 hne
  have hmem : c ∈ path.1 := by
    rcases hpath with h | ⟨pre, h⟩ <;> simp [h, hc]
  obtain ⟨q, buf, hbase, -, -, hname⟩ := (baseNames_iff path).2 ⟨c, hmem, fun h => hsep (h ▸ hc)⟩
  have hlast : stringOf (buf.drop q) = n.1 := by
    rw [hname, hn]
    rfl
  simp only [findDevice, hbase, hlast, Option.bind_some]

theorem Registered.finds_iff (hr : Registered r) (hn : LastName path n) :
    FindsDevice r path n ↔ path = n ∨ r.registered n = none := by
  rw [FindsDevice, findDevice_eq _ hn, hr.tree.findFileInDir_eq hr.dir, Option.map_some,
    Option.some_inj]
  by_cases hpath : path = n
  · subst hpath
    exact iff_of_true (hr.find (eq_of_getLast?_pathNames hn).1) (.inl rfl)
  · rw [hr.find_of_lt (hn.length_lt hpath), or_iff_right hpath]
    exact eq_comm

/-- **A device is found** by a path never in the code, as the search does not return. If there are
    directories, it is found just if the path is its name, or none is registered; and the calls
    return. -/
theorem findsDevice_iff {own : Bool} (hrun : Run Registry.step Named (start own : Registry D) r)
    (hn : LastName path n) :
    (own = true → ∀ op, Named r op → (Registry.step r op).isSome) ∧
      (FindsDevice r path n ↔ own = true ∧ (path = n ∨ r.registered n = none)) := by
  cases own with
  | true =>
    have hr := registered_of_run hrun
    refine ⟨fun _ op hop => ?_, ?_⟩
    · obtain ⟨r₁, hstep, -⟩ := hr.step hop
      rw [hstep, Option.isSome_some]
    · rw [hr.finds_iff hn, and_iff_right rfl]
  | false =>
    refine ⟨nofun, iff_of_false (fun h => ?_) fun h => nomatch h.1⟩
    obtain rfl := eq_start_of_run hrun
    have hpath : path.1 ≠ [] := by
      intro hnil
      rw [LastName, hnil] at hn
      exact nomatch hn
    have hsearch : Vfs.init.findFileInDir devNode n.1 (strlen path.1) = none :=
      if_neg (not_or.2 ⟨fun h => hpath (List.length_eq_zero_iff.1 h), Bool.false_ne_true⟩)
    rw [FindsDevice, findDevice_eq _ hn] at h
    exact nomatch (congrArg (Option.map _) hsearch).symm.trans h

/-- If there are directories, a device `t` is found by its name. -/
theorem findsDevice_name : ∃ r : Registry ℕ, r.registered (.ofChars ['t'] (by decide)) = some 1 ∧
    FindsDevice r (.ofChars ['t'] (by decide)) (.ofChars ['t'] (by decide)) := by
  let t : CStr := .ofChars ['t'] (by decide)
  obtain ⟨r, hrun, hr⟩ := Run.exists_of_execute (by decide +kernel :
    (execute Registry.step Named (start true : Registry ℕ) [.addDev 1 t false true]).map
      (fun r => r.registered t) = some (some 1))
  have hlast : LastName t t := by decide +kernel
  exact ⟨r, hr, (findsDevice_iff hrun hlast).2.2 ⟨rfl, .inl rfl⟩⟩

/-- A device that has not been added is not found missing. And if there are directories, a device is
    not found by its path, or with a separator after its name. -/
theorem not_findsDevice :
    ¬FindsDevice
      (start false : Registry ℕ) (.ofChars ['t'] (by decide)) (.ofChars ['t'] (by decide)) ∧
    ∃ r : Registry ℕ, Run Registry.step Named (start true) r ∧
      r.registered (.ofChars ['t'] (by decide)) = some 1 ∧
      ¬FindsDevice r (.ofChars ['/', 'd', 'e', 'v', '/', 't'] (by decide))
        (.ofChars ['t'] (by decide)) ∧
      ¬FindsDevice r (.ofChars ['t', '/'] (by decide)) (.ofChars ['t'] (by decide)) := by
  let t : CStr := .ofChars ['t'] (by decide)
  let path : CStr := .ofChars ['/', 'd', 'e', 'v', '/', 't'] (by decide)
  let slash : CStr := .ofChars ['t', '/'] (by decide)
  constructor
  · have hnone : (start false : Registry ℕ).devices.findDevice t = none := by decide +kernel
    intro h
    exact nomatch hnone.symm.trans h
  · obtain ⟨r, hrun, hr⟩ := Run.exists_of_execute (by decide +kernel :
      (execute Registry.step Named (start true : Registry ℕ) [.addDev 1 t false true]).map
        (fun r => (r.registered t, r.devices.findDevice path, r.devices.findDevice slash)) =
          some (some 1, some none, some none))
    obtain ⟨hreg, hr⟩ := Prod.mk.inj hr
    obtain ⟨hpath, hseps⟩ := Prod.mk.inj hr
    refine ⟨r, hrun, hreg, fun h => ?_, fun h => ?_⟩
    · rw [FindsDevice, hpath, hreg] at h
      exact nomatch h
    · rw [FindsDevice, hseps, hreg] at h
      exact nomatch h

end Registry

end DemoOs
