import DemoOs.Bytes
import DemoOs.Lib.Search
import DemoOs.Vfs.Names
import DemoOs.Vfs.Pool

/-!
# Paths

The path of a node is printed by `getPathTo`, which goes up the tree and writes from right to left,
and looked up by `findSubDirFromCurDir`, which splits the path at its separators and goes down. A
path is printed in full or refused, but if it is as long as the buffer, the zero is written behind
that (`prints_iff`). In a tree made by `mkdir`, of names that are not empty and have no separator in
them:

* the printed path consists of the names on the way from the root to the directory (`Spells`,
  `Descends.getPathTo`);
* in the code the root is no directory, so that the search for the first name does not return,
  whatever the path. If it were one, `strchr` would find no separator, so that what is left of the
  path is taken for a single name, and no directory has it if there is a separator in it. So just
  the directories in the root would be found (`lookup_iff_of_run`).
-/

namespace DemoOs

namespace Vfs

open CStr

variable {s s' : Vfs} {d i j p : Slot} {name : CStr} {names : List CStr} {op : VfsOp}

/-! ## The functions -/

/-- The loop of `findSubDirFromCurDir`. Every turn takes a byte of the path, and the first argument
    bounds their number. -/
def findSubDir (s : Vfs) : ℕ → Option Slot → List UInt8 → Option (Option Slot)
  | 0, _, _ => none
  | _ + 1, none, _ => some none
  | turns + 1, some curDir, path =>
    if deref path = 0 then some none
    else do
      match ← strchr path pathSeparator with
      | some subName =>
        s.findSubDir turns (← s.findDirInDir curDir path (path.length - subName.length))
          subName.tail
      | none => s.findDirInDir curDir path (strlen path)

/-- `VFS::findSubDirFromCurDir`. It does not return (none) if a search runs on beyond the path. -/
def findSubDirFromCurDir (s : Vfs) (curDir : Slot) (subDirPathName : List UInt8) :
    Option (Option Slot) :=
  let path := if deref subDirPathName = pathSeparator then subDirPathName.tail else subDirPathName
  s.findSubDir (path.length + 1) (some curDir) path

/-- The first loop of `getPathTo`, on the way to the root: the length of the path. -/
def pathLength (s : Vfs) : ℕ → Slot → ℕ → Option ℕ
  | 0, _, _ => none
  | depth + 1, n, total =>
    match (s.nodes n).parent with
    | none => some total
    | some parent => s.pathLength depth parent (word (total + word ((s.nodes n).nameLen + 1)))

/-- The second loop of `getPathTo`, which writes the names into the bytes from `dst` on. -/
def writePath (s : Vfs) : ℕ → Slot → ℕ → Bytes → Option Bytes
  | 0, _, _, _ => none
  | depth + 1, n, total, dst =>
    match (s.nodes n).parent with
    | none => some dst
    | some parent => do
      let name ← (s.nodes n).name
      let nlen := word ((s.nodes n).nameLen + 1)
      let dst := Function.update dst (total - nlen) pathSeparator
      let dst := Bytes.store dst (total + 1 - nlen) (name.1.take (nlen - 1))
      s.writePath depth parent (wordSub total nlen) dst

/-- `getPathTo`, into a buffer of this size. -/
def getPathTo (s : Vfs) (n : Slot) (dst : Bytes) (size : ℕ) : Option (ErrNo × Bytes) := do
  let total ← s.pathLength maxDepth n 0
  if total > size then some (.ENAMETOOLONG, dst)
  else do
    let dst ← s.writePath maxDepth n total dst
    some (.ENONE, Function.update dst total 0)

/-! ## Trees made by `mkdir` -/

/-- A name that is not empty and has no separator in it. -/
def Proper (name : CStr) : Prop := name.1 ≠ [] ∧ pathSeparator ∉ name.1

instance (name : CStr) : Decidable (Proper name) := instDecidableAnd

/-- `mkdir` of a proper name that is not taken. -/
def Growing (s : Vfs) : VfsOp → Prop
  | .mkdir this _ name _ => Proper name ∧ ¬s.Taken this name
  | _ => False

/-- The names lead from the root to the directory. -/
inductive Spells (s : Vfs) : List CStr → Slot → Prop
  | root : Spells s [] rootNode
  | child {names : List CStr} {name : CStr} {d i : Slot} : Spells s names d → i ∈ s.children d →
      (s.nodes i).HasName name → Spells s (names ++ [name]) i

/-- The path with these names: each has a separator before it. -/
def pathOf (names : List CStr) : List UInt8 := names.flatMap fun name => pathSeparator :: name.1

theorem spells_nil (h : Spells s [] i) : i = rootNode := by
  generalize hnil : [] = names at h
  cases h with
  | root => rfl
  | child => exact absurd hnil (by simp)

theorem spells_concat (h : Spells s (names ++ [name]) i) :
    ∃ d, Spells s names d ∧ i ∈ s.children d ∧ (s.nodes i).HasName name := by
  generalize hall : names ++ [name] = all at h
  cases h with
  | root => exact absurd hall (by simp)
  | child hd hi hname =>
    obtain ⟨rfl, heq⟩ := List.append_inj' hall rfl
    obtain rfl := List.singleton_inj.1 heq
    exact ⟨_, hd, hi, hname⟩

theorem pathOf_concat : pathOf (names ++ [name]) = pathOf names ++ pathSeparator :: name.1 := by
  simp [pathOf]

theorem zero_not_mem_pathOf : 0 ∉ pathOf names := by
  rw [pathOf, List.mem_flatMap]
  rintro ⟨name, -, h⟩
  rcases List.mem_cons.1 h with h | h
  · exact absurd h (by decide)
  · exact name.2 h

/-- The string is at the beginning of the memory. -/
def Holds (m : Bytes) (str : List UInt8) : Prop := m.bytes 0 str.length = str ∧ m str.length = 0

/-- A tree made by `mkdir`. A directory is not deeper than there are nodes. -/
structure Grown (s : Vfs) : Prop where
  tree : Tree s
  named : Named s
  root_parent : (s.nodes rootNode).parent = none
  no_files : ∀ d, s.lists (.files d) = []
  proper : ∀ {d i name}, i ∈ s.lists (.dirs d) → (s.nodes i).HasName name → Proper name
  spelt : ∀ i ∉ s.lists .free, ∃ names, Spells s names i ∧ names.length < s.allocatedCount

/-! ## Printing -/

/-- The names lead from a node without a parent down to this one. -/
inductive Descends (s : Vfs) : List CStr → Slot → Prop
  | root {i : Slot} : (s.nodes i).parent = none → Descends s [] i
  | child {names : List CStr} {name : CStr} {d i : Slot} : Descends s names d →
      (s.nodes i).parent = some d → (s.nodes i).HasName name → Descends s (names ++ [name]) i

theorem Descends.unique {names' : List CStr} (h : Descends s names i) (h' : Descends s names' i) :
    names = names' := by
  induction h generalizing names' with
  | root hnone =>
    cases h' with
    | root => rfl
    | child _ hsome _ => exact nomatch hnone.symm.trans hsome
  | child _ hsome hname ih =>
    cases h' with
    | root hnone => exact nomatch hnone.symm.trans hsome
    | child hd hsome' hname' =>
      rw [ih (Option.some.inj (hsome.symm.trans hsome') ▸ hd), hname.eq hname']

/-- Every part of the way leads to a node. -/
theorem Descends.take (h : Descends s names i) (k : ℕ) : ∃ j, Descends s (names.take k) j := by
  induction h with
  | @root i hnone => exact ⟨i, by rw [List.take_nil]; exact .root hnone⟩
  | @child names name d i hd hparent hname ih =>
    rcases Nat.lt_or_ge names.length k with hlt | hge
    · refine ⟨i, ?_⟩
      rw [List.take_of_length_le (by simpa using hlt)]
      exact hd.child hparent hname
    · rwa [List.take_append_of_le_length hge]

/-- A node is not deeper than there are nodes. -/
theorem Descends.length_lt (h : Descends s names i) : names.length < 200 := by
  choose j hj using h.take
  have hinj : Function.Injective fun k : Fin (names.length + 1) => j k := by
    intro k k' heq
    have htake := (hj k).unique ((show j k = j k' from heq) ▸ hj k')
    have hlen := congrArg List.length htake
    rw [List.length_take, List.length_take] at hlen
    exact Fin.ext (by omega)
  have hcard := Fintype.card_le_of_injective _ hinj
  rwa [Fintype.card_fin, Fintype.card_fin] at hcard

/-- The length of the path is counted up to `2 ^ 32`. -/
theorem Descends.pathLength (h : Descends s names i) {depth total : ℕ}
    (hdepth : names.length < depth)
    (htotal : total < 2 ^ 32) :
    s.pathLength depth i total = some (word (total + (pathOf names).length)) := by
  induction h generalizing depth total with
  | root hnone =>
    obtain ⟨depth, rfl⟩ := Nat.exists_eq_add_one_of_ne_zero (Nat.ne_of_gt hdepth)
    simp [Vfs.pathLength, hnone, pathOf, word_eq htotal]
  | @child names name d i _ hparent hname ih =>
    obtain ⟨depth, rfl⟩ :=
      Nat.exists_eq_add_one_of_ne_zero (Nat.ne_of_gt (Nat.zero_lt_of_lt hdepth))
    rw [List.length_append, List.length_singleton] at hdepth
    simp only [Vfs.pathLength, hparent]
    rw [ih (by omega) (word_lt _), hname.2, pathOf_concat, List.length_append, List.length_cons]
    congr 1
    simp only [word]
    omega

/-- A separator and a name are written. -/
theorem bytes_store_update (dst : Bytes) (n : ℕ) (b : UInt8) (l : List UInt8) :
    Bytes.bytes (Bytes.store (Function.update dst n b) (n + 1) l) n (l.length + 1) = b :: l := by
  rw [Bytes.bytes_succ, Bytes.bytes_store, Bytes.store_of_ne (.inl (Nat.lt_succ_self n)),
    Function.update_self]

theorem store_update_of_le (dst : Bytes) {n x : ℕ} (b : UInt8) {l : List UInt8}
    (hx : n + (l.length + 1) ≤ x) :
    Bytes.store (Function.update dst n b) (n + 1) l x = dst x := by
  rw [Bytes.store_of_ne (.inr (by omega)), Function.update_of_ne (by omega)]

/-- The names are written before each other, the bytes after them stay. -/
theorem Descends.writePath (h : Descends s names i) {depth : ℕ} (dst : Bytes)
    (hdepth : names.length < depth) (hlen : (pathOf names).length < 2 ^ 32) :
    ∃ dst', s.writePath depth i (pathOf names).length dst = some dst' ∧
      Bytes.bytes dst' 0 (pathOf names).length = pathOf names ∧
      ∀ x, (pathOf names).length ≤ x → dst' x = dst x := by
  induction h generalizing depth dst with
  | root hnone =>
    obtain ⟨depth, rfl⟩ := Nat.exists_eq_add_one_of_ne_zero (Nat.ne_of_gt hdepth)
    exact ⟨dst, by rw [Vfs.writePath, hnone], rfl, fun _ _ => rfl⟩
  | @child names name d i _ hparent hname ih =>
    obtain ⟨depth, rfl⟩ :=
      Nat.exists_eq_add_one_of_ne_zero (Nat.ne_of_gt (Nat.zero_lt_of_lt hdepth))
    rw [pathOf_concat, List.length_append, List.length_cons] at hlen ⊢
    rw [List.length_append, List.length_singleton] at hdepth
    set n := (pathOf names).length with hn
    -- The last name and the separator before it are written, then the names before.
    obtain ⟨dst', hwrite, hbytes, hkeep⟩ := @ih depth
      (Bytes.store (Function.update dst n pathSeparator) (n + 1) name.1) (by omega) (by omega)
    have hword : word ((s.nodes i).nameLen + 1) = name.1.length + 1 := by
      rw [hname.2, word_eq (by omega)]
    refine ⟨dst', ?_, ?_, fun x hx => ?_⟩
    · have hsub : n + (name.1.length + 1) - (name.1.length + 1) = n := by omega
      have hsub' : n + (name.1.length + 1) + 1 - (name.1.length + 1) = n + 1 := by omega
      have hback : wordSub (n + (name.1.length + 1)) (name.1.length + 1) = n := by
        rw [wordSub_eq (by omega) (by omega), hsub]
      simp only [Vfs.writePath, hparent, hname.1, hword, hsub, hsub', hback,
        Nat.add_sub_cancel, Option.bind_eq_bind, Option.bind_some, List.take_length]
      exact hwrite
    · have hlast : Bytes.bytes dst' n (name.1.length + 1) = pathSeparator :: name.1 :=
        (Bytes.bytes_eq_iff.2 fun k _ => hkeep _ (Nat.le_add_right n k)).trans
          (bytes_store_update dst n pathSeparator name.1)
      rw [Bytes.bytes_add, hbytes, Nat.zero_add, hlast]
    · rw [hkeep x (by omega), store_update_of_le dst pathSeparator hx]

/-- A path that seems too long is refused. -/
theorem Descends.getPathTo_of_lt (h : Descends s names i) (dst : Bytes) {size : ℕ}
    (hsize : size < word (pathOf names).length) :
    s.getPathTo i dst size = some (.ENAMETOOLONG, dst) := by
  have htotal : s.pathLength maxDepth i 0 = some (word (pathOf names).length) := by
    rw [h.pathLength (h.length_lt.trans (by decide)) (by decide), Nat.zero_add]
  simp only [Vfs.getPathTo, htotal, Option.bind_eq_bind, Option.bind_some]
  exact if_pos hsize

/-- The path is printed, if there is room for it, with or without the zero at its end. -/
theorem Descends.getPathTo (h : Descends s names i) (dst : Bytes) {size : ℕ}
    (hroom : (pathOf names).length ≤ size) (hsize : size < 2 ^ 32) :
    ∃ m, s.getPathTo i dst size = some (.ENONE, m) ∧ StringAt m 0 (pathOf names) ∧
      ∀ x, (pathOf names).length < x → m x = dst x := by
  have hdepth : names.length < maxDepth := h.length_lt.trans (by decide)
  have hlen := hroom.trans_lt hsize
  obtain ⟨m, hwrite, hbytes, hkeep⟩ := h.writePath dst hdepth hlen
  have htotal : s.pathLength maxDepth i 0 = some (pathOf names).length := by
    rw [h.pathLength hdepth (by decide), Nat.zero_add, word_eq hlen]
  refine ⟨Function.update m (pathOf names).length 0, ?_, ⟨?_, ?_⟩, fun x hx => ?_⟩
  · simp only [Vfs.getPathTo, htotal, Option.bind_eq_bind, Option.bind_some, hwrite]
    exact if_neg (not_lt.2 hroom)
  · conv_rhs => rw [← hbytes]
    exact Bytes.bytes_eq_iff.2 fun k hk => Function.update_of_ne (by omega) ..
  · rw [Nat.zero_add, Function.update_self]
  · rw [Function.update_of_ne (by omega), hkeep x hx.le]

/-- The path is refused and nothing written, or it is written into the buffer with the zero at its
    end. -/
def Prints (s : Vfs) (i : Slot) (names : List CStr) (dst : Bytes) (size : ℕ) : Prop :=
  ∃ e m, s.getPathTo i dst size = some (e, m) ∧
    (e = .ENAMETOOLONG ∧ m = dst ∨
      e = .ENONE ∧ (pathOf names).length < size ∧ StringAt m 0 (pathOf names) ∧
        ∀ x, size ≤ x → m x = dst x)

/-- A path is printed as it should be just if there is room for it and for the zero at its end, or
    it seems too long, in the 32 bits of its length. -/
theorem prints_iff (h : Descends s names i) (dst : Bytes) {size : ℕ} (hsize : size < 2 ^ 32) :
    Prints s i names dst size ↔ (pathOf names).length < size ∨
      size < word (pathOf names).length := by
  constructor
  · rintro ⟨e, m, hpath, ⟨rfl, -⟩ | ⟨-, hroom, -⟩⟩
    · by_contra hno
      rw [not_or] at hno
      -- It is not refused, so that the result is another one.
      have htotal : s.pathLength maxDepth i 0 = some (word (pathOf names).length) := by
        rw [h.pathLength (h.length_lt.trans (by decide)) (by decide), Nat.zero_add]
      simp only [Vfs.getPathTo, htotal, Option.bind_eq_bind, Option.bind_some] at hpath
      rw [if_neg hno.2] at hpath
      obtain ⟨dst', -, heq⟩ := Option.bind_eq_some_iff.1 hpath
      exact nomatch (Prod.mk.inj (Option.some.inj heq)).1
    · exact .inl hroom
  · rintro (hroom | hlong)
    · obtain ⟨m, hpath, hat, hkeep⟩ := h.getPathTo dst hroom.le hsize
      exact ⟨_, m, hpath, .inr ⟨rfl, hroom, hat, fun x hx => hkeep x (hroom.trans_le hx)⟩⟩
    · exact ⟨_, dst, h.getPathTo_of_lt dst hlong, .inl ⟨rfl, rfl⟩⟩

theorem descends_home : Descends init [home] homeNode :=
  .child (.root (start_nodes false rootNode).2) (start_nodes false homeNode).2 ⟨rfl, rfl⟩

theorem prints_home : Prints init homeNode [home] (fun _ => 0) 6 :=
  (prints_iff descends_home _ (by decide)).2 (.inl (by decide))

/-- In a buffer of five bytes, the zero is written behind it. -/
theorem not_prints : ¬Prints init homeNode [home] (fun _ => 0) 5 := by
  obtain ⟨m', hpath, -⟩ := descends_home.getPathTo (fun _ => 0) (by decide) (by decide : 5 < 2 ^ 32)
  rintro ⟨e, m, hpath', ⟨rfl, -⟩ | ⟨-, hroom, -⟩⟩
  · exact nomatch hpath.symm.trans hpath'
  · exact absurd hroom (by decide)

/-- Names that lead down to a node lead up from it, if children have the right parents. -/
theorem Spells.descends (hroot : (s.nodes rootNode).parent = none)
    (hparent : ∀ {d i}, i ∈ s.children d → (s.nodes i).parent = some d) (hi : Spells s names i) :
    Descends s names i := by
  induction hi with
  | root => exact .root hroot
  | child _ hmem hname ih => exact ih.child (hparent hmem) hname

/-- The path of a node is printed into every buffer that has room for it and for the zero at its
    end. -/
def Printed (s : Vfs) (i : Slot) (names : List CStr) : Prop :=
  ∀ dst size, (pathOf names).length < size → size < 2 ^ 32 →
    ∃ m, s.getPathTo i dst size = some (.ENONE, m) ∧ Holds m (pathOf names)

theorem Descends.printed (hi : Descends s names i) : Printed s i names := by
  intro dst size hroom hsize
  obtain ⟨m, hpath, ⟨hbytes, hend⟩, -⟩ := hi.getPathTo dst hroom.le hsize
  rw [Nat.zero_add] at hend
  exact ⟨m, hpath, hbytes, hend⟩

/-- The children of a directory are the directories in it. -/
theorem Grown.mem_children_iff (hs : Grown s) : i ∈ s.children d ↔ i ∈ s.lists (.dirs d) := by
  rw [children, hs.no_files, List.append_nil]

/-- The parent of a directory is the one it is in. -/
theorem Grown.parent (hs : Grown s) (hi : i ∈ s.children d) : (s.nodes i).parent = some d :=
  hs.tree.parent (h := .dirs d) rfl (hs.mem_children_iff.1 hi)

theorem Grown.descends (hs : Grown s) (hi : Spells s names i) : Descends s names i :=
  hi.descends hs.root_parent hs.parent

/-! ## Lookup -/

/-- A directory is found just if it has the name looked for. -/
theorem Grown.dirNamed_eq_some_iff (hs : Grown s) {str : List UInt8} (hstr : 0 ∉ str)
    (hne : str ≠ []) :
    s.dirNamed d str (strlen str) = some i ↔
      i ∈ s.lists (.dirs d) ∧ ∃ name, (s.nodes i).HasName name ∧ name.1 = str := by
  have hnamed {j : Slot} (hj : j ∈ s.lists (.dirs d)) : (s.nodes j).isNamed str (strlen str) ↔
      ∃ name, (s.nodes j).HasName name ∧ name.1 = str := by
    obtain ⟨nm, hnm⟩ := hs.tree.named _ (nofun : NodeHdr.dirs d ≠ .free) j hj
    rw [hnm.isNamed_iff hstr, strlen, List.take_length]
    constructor
    · exact fun h => ⟨nm, hnm, h.2⟩
    · rintro ⟨name, hname, rfl⟩
      rw [hnm.eq hname]
      exact ⟨rfl, rfl⟩
  constructor
  · intro hfind
    obtain ⟨-, hi, hmatch⟩ := findIn_eq_some hfind
    exact ⟨hi, (hnamed hi).1 hmatch⟩
  · rintro ⟨hi, name, hname, rfl⟩
    have hlen : strlen name.1 ≠ 0 := fun h => hne (List.length_eq_zero_iff.1 h)
    rw [dirNamed, findIn, if_neg hlen]
    refine Search.find?_eq_some_of_unique hi ((hnamed hi).2 ⟨name, hname, rfl⟩) fun j hj hmatch =>
      ?_
    obtain ⟨nm, hnm, heq⟩ := (hnamed hj).1 hmatch
    exact hs.named.unique (List.mem_append_left _ hj) (List.mem_append_left _ hi) hnm
      (Subtype.ext heq ▸ hname)

/-- What follows the first separator of a path is taken for a single name. -/
theorem findSubDirFromCurDir_pathOf {rest : List UInt8} (hrest : rest ≠ []) (hzero : 0 ∉ rest) :
    s.findSubDirFromCurDir d (pathSeparator :: rest) = s.findDirInDir d rest (strlen rest) := by
  have hderef : deref rest ≠ 0 := fun h => hrest ((deref_eq_zero_iff hzero).1 h)
  have hskip : s.findSubDirFromCurDir d (pathSeparator :: rest) =
      s.findSubDir (rest.length + 1) (some d) rest := by
    simp [findSubDirFromCurDir, deref]
  rw [hskip, findSubDir, if_neg hderef, strchr_of_ne_nil hzero hrest]
  rfl

/-- The path of some names is a separator, and a string that is not empty. -/
theorem exists_pathOf (hne : names ≠ []) (hproper : ∀ name ∈ names, Proper name) :
    ∃ rest ≠ [], 0 ∉ rest ∧ pathOf names = pathSeparator :: rest := by
  obtain ⟨name, names', rfl⟩ := List.exists_cons_of_ne_nil hne
  have hname : name.1 ≠ [] := (hproper name List.mem_cons_self).1
  refine ⟨name.1 ++ pathOf names', by simp [hname], ?_, by simp [pathOf]⟩
  rw [List.mem_append, not_or]
  exact ⟨name.2, zero_not_mem_pathOf⟩

/-- The lookup of a path does not return where there are no directories. -/
theorem lookup_eq_none (hown : s.ownInit = false) (hne : names ≠ [])
    (hproper : ∀ name ∈ names, Proper name) :
    s.findSubDirFromCurDir d (pathOf names) = none := by
  obtain ⟨rest, hrest, hzero, hpath⟩ := exists_pathOf hne hproper
  rw [hpath, findSubDirFromCurDir_pathOf hrest hzero]
  refine if_neg (not_or.2 ⟨fun h => hrest (List.length_eq_zero_iff.1 h), ?_⟩)
  rw [hasLists, hown]
  exact Bool.false_ne_true

/-- A path that is looked up leads to a directory just if it spells that one, and has one name
    only. -/
theorem Grown.lookup (hs : Grown s) (hne : names ≠ []) (hproper : ∀ name ∈ names, Proper name) :
    ∃ r, s.findSubDirFromCurDir rootNode (pathOf names) = some r ∧
      ∀ d, r = some d ↔ Spells s names d ∧ names.length = 1 := by
  obtain ⟨rest, hrest, hzero, hpath⟩ := exists_pathOf hne hproper
  refine ⟨s.dirNamed rootNode rest (strlen rest), ?_, fun d => ?_⟩
  · rw [hpath, findSubDirFromCurDir_pathOf hrest hzero]
    exact if_pos (.inr (hs.tree.hasLists hs.tree.root_type))
  rw [hs.dirNamed_eq_some_iff hzero hrest]
  obtain ⟨name, names', rfl⟩ := List.exists_cons_of_ne_nil hne
  obtain rfl : name.1 ++ pathOf names' = rest := by simpa [pathOf] using hpath
  constructor
  · rintro ⟨hd, nm, hnm, heq⟩
    -- The name of the directory has no separator, so the path has one name only.
    obtain rfl : names' = [] := by
      by_contra hmore
      obtain ⟨name', names'', rfl⟩ := List.exists_cons_of_ne_nil hmore
      refine (hs.proper hd hnm).2 ?_
      rw [heq]
      simp [pathOf]
    obtain rfl : nm = name := Subtype.ext (heq.trans (List.append_nil _))
    exact ⟨(.child .root (hs.mem_children_iff.2 hd) hnm : Spells s ([] ++ [nm]) d), rfl⟩
  · rintro ⟨hspells, hlen⟩
    obtain rfl : names' = [] := List.length_eq_zero_iff.1 (Nat.succ.inj hlen)
    obtain ⟨e, he, hd, hnm⟩ := spells_concat (show Spells s ([] ++ [name]) d from hspells)
    exact ⟨spells_nil he ▸ hs.mem_children_iff.1 hd, name, hnm, (List.append_nil _).symm⟩

theorem Grown.proper_of_spells (hs : Grown s) (hi : Spells s names i) :
    ∀ name ∈ names, Proper name := by
  induction hi with
  | root => exact fun _ h => absurd h List.not_mem_nil
  | child _ hmem hname ih =>
    intro nm hnm
    rcases List.mem_append.1 hnm with h | h
    · exact ih nm h
    · exact List.mem_singleton.1 h ▸ hs.proper (hs.mem_children_iff.1 hmem) hname

theorem Grown.spells_root (hs : Grown s) (h : Spells s names rootNode) : names = [] := by
  cases h with
  | root => rfl
  | child _ hmem _ => exact absurd (hs.mem_children_iff.1 hmem) (hs.tree.root_not_mem _)

/-- The path of a directory leads back to it just if it is in the root. -/
theorem Grown.lookup_iff (hs : Grown s) (hd : Spells s names d) (hroot : d ≠ rootNode) :
    s.findSubDirFromCurDir rootNode (pathOf names) = some (some d) ↔
      (s.nodes d).parent = some rootNode := by
  obtain rfl | ⟨names, name, rfl⟩ := List.eq_nil_or_concat' names
  · exact absurd (spells_nil hd) hroot
  obtain ⟨r, hr, hfound⟩ := hs.lookup (by simp) (hs.proper_of_spells hd)
  obtain ⟨p, hp, hmem, -⟩ := spells_concat hd
  have hone : (names ++ [name]).length = 1 ↔ p = rootNode := by
    rw [List.length_append, List.length_singleton, Nat.add_eq_right, List.length_eq_zero_iff]
    exact ⟨fun h => spells_nil (h ▸ hp), fun h => hs.spells_root (h ▸ hp)⟩
  rw [hr, Option.some_inj, hfound, and_iff_right hd, hone, hs.parent hmem, Option.some_inj]

/-! ## Runs -/

theorem Created.spells (hs : Linked s) (hc : Created s s' d i .Directory name)
    (hj : Spells s names j) :
    Spells s' names j := by
  induction hj with
  | root => exact .root
  | @child names nm e j _ hmem hname ih =>
    have hne : j ≠ i := by
      rintro rfl
      obtain ⟨h, hh, hmem⟩ := mem_children.1 hmem
      rw [hs.apart.unique hmem hc.free] at hh
      exact nomatch hh
    exact ih.child ((hc.mem_children_iff hs).2 (.inr ⟨hne, hmem⟩)) ((hc.hasName_iff hne).2 hname)

theorem Grown.created (hs : Grown s) (hc : Created s s' d i .Directory name)
    (hdir : (s.nodes d).nodeType = .Directory) (hproper : Proper name) (hfresh : ¬s.Taken d name) :
    Grown s' := by
  have hlinked := hs.tree.toLinked
  have hcount : s'.allocatedCount = s.allocatedCount + 1 := by
    rw [hc.count, word_eq]
    have := hs.tree.count
    omega
  -- Every list but that of the parent is as it was.
  have hnew : ∀ {j e}, j ∈ s'.lists (.dirs e) → (j = i ∧ e = d) ∨
      (j ≠ i ∧ j ∈ s.lists (.dirs e)) := by
    intro j e hj
    rcases (hc.mem_iff hlinked (h := .dirs e) rfl).1 hj with ⟨rfl, heq⟩ | hj
    · exact .inl ⟨rfl, NodeHdr.dirs.inj heq⟩
    · refine .inr ⟨?_, hj⟩
      rintro rfl
      exact nomatch hs.tree.apart.unique hj hc.free
  refine
    { tree := hs.tree.created hc hdir
      named := hs.named.created hc hfresh
      root_parent := ?_
      no_files := fun e => List.eq_nil_iff_forall_not_mem.2 fun j hj => ?_
      proper := ?_
      spelt := ?_ }
  · have hroot : rootNode ≠ i := by
      rintro rfl
      exact hs.tree.root_not_mem .free hc.free
    rw [hc.parent_eq hroot, hs.root_parent]
  · rcases (hc.mem_iff hlinked (h := .files e) rfl).1 hj with ⟨-, heq⟩ | hj
    · exact nomatch heq
    · rw [hs.no_files] at hj
      exact List.not_mem_nil hj
  · intro e j nm hj hname
    rcases hnew hj with ⟨rfl, -⟩ | ⟨hne, hj⟩
    · exact hname.eq hc.isNew.hasName ▸ hproper
    · exact hs.proper hj ((hc.hasName_iff hne).1 hname)
  · intro j hj
    by_cases hji : j = i
    · -- The new directory is one deeper than the one it is in.
      obtain ⟨names, hspells, hdepth⟩ := hs.spelt d hc.dir_not_free
      have hmem : i ∈ s'.children d := (hc.mem_children_iff hlinked).2 (.inl ⟨rfl, rfl⟩)
      refine ⟨names ++ [name], hji ▸ (hc.spells hlinked hspells).child hmem hc.isNew.hasName, ?_⟩
      rw [List.length_append, List.length_singleton, hcount]
      exact Nat.succ_lt_succ hdepth
    · obtain ⟨names, hspells, hdepth⟩ := hs.spelt j fun hfree =>
        hj ((hc.mem_free_iff hs.tree.apart).2 ⟨hji, hfree⟩)
      exact ⟨names, hc.spells hlinked hspells, by omega⟩

theorem Grown.step (hs : Grown s) (hg : Growing s op) (hstep : Vfs.step s op = some s') :
    Grown s' := by
  obtain ⟨⟨r, s₁⟩, hcall, rfl⟩ := Option.map_eq_some_iff.1 hstep
  cases op with
  | mkdir this pid name copied =>
    have hop : Creates (.mkdir this pid name copied) := trivial
    rcases call_of_creates (s := s) hop with
      ⟨-, e, h⟩ | ⟨dir, t, nm, _, _, hcr, -⟩
    · exact (Prod.mk.inj (Option.some.inj (h.symm.trans hcall))).2 ▸ hs
    · obtain ⟨hdir, heq⟩ := Option.ite_none_right_eq_some.1 hcr
      rw [initType_of_ownInit hs.tree.ownInit, initType_of_ownInit hs.tree.ownInit] at heq
      obtain ⟨rfl, rfl, rfl⟩ : this = dir ∧ .Directory = t ∧ name = nm := by
        simpa using Option.some.inj heq
      rw [initType_of_ownInit hs.tree.ownInit] at hcr
      rcases hs.tree.call_of_creation hcr (hs.tree.not_free hdir) with
        ⟨-, -, h⟩ | ⟨-, ⟨-, h⟩ | ⟨-, h | ⟨i, s', h, hc⟩⟩⟩
      · exact nomatch h.symm.trans hcall
      · exact (Prod.mk.inj (Option.some.inj (h.symm.trans hcall))).2 ▸ hs
      · exact (Prod.mk.inj (Option.some.inj (h.symm.trans hcall))).2 ▸ hs
      · exact (Prod.mk.inj (Option.some.inj (h.symm.trans hcall))).2 ▸ hs.created hc hdir hg.1 hg.2
  | _ => exact hg.elim

theorem proper_start (own : Bool) : ∀ i ∈ (start own).lists (.ofType (startType own) rootNode),
    ∃ name, ((start own).nodes i).HasName name ∧ Proper name := by
  intro i hi
  rw [start_root] at hi
  cases own <;> fin_cases hi <;> exact ⟨_, ⟨rfl, rfl⟩, by decide⟩

/-- Every directory of `VFS::init` is spelt. -/
theorem spells_start (own : Bool) (hi : i ∉ (start own).lists .free) :
    (i = rootNode ∧ Spells (start own) [] i) ∨ ∃ name, Proper name ∧
    Spells (start own) [name] i := by
  by_cases hroot : i = rootNode
  · exact .inl ⟨hroot, hroot ▸ .root⟩
  · have hlt : i < 5 := not_le.1 fun h => hi (mem_start_free.2 h)
    have hmem : i ∈ (start own).lists (.ofType (startType own) rootNode) :=
      mem_start_root.2 ⟨hlt, hroot⟩
    obtain ⟨nm, hnm, hproper⟩ := proper_start own i hmem
    have hchild : i ∈ (start own).children rootNode :=
      mem_children.2 ⟨_, NodeHdr.dir_ofType _ _, hmem⟩
    exact .inr ⟨nm, hproper, (Spells.root.child hchild hnm : Spells _ ([] ++ [nm]) i)⟩

theorem parent_start {own : Bool} (hi : i ∈ (start own).children d) :
    ((start own).nodes i).parent = some d := by
  obtain ⟨rfl, hmem⟩ := mem_children_start hi
  exact (start_nodes own i).2.trans (if_pos (mem_start_root.1 hmem))

theorem grown_start : Grown (start true) where
  tree := tree_start
  named := named_start true
  root_parent := (start_nodes true rootNode).2
  no_files d := start_files true d nofun
  proper {d i name} hi hname := by
    obtain ⟨heq, -⟩ := (mem_start hi).resolve_left nofun
    obtain ⟨nm, hnm, hproper⟩ := proper_start true i (heq ▸ hi)
    exact hname.eq hnm ▸ hproper
  spelt i hi := by
    have hcount : (start true).allocatedCount = 5 := by decide +kernel
    rw [hcount]
    rcases spells_start true hi with ⟨-, h⟩ | ⟨name, -, h⟩
    · exact ⟨[], h, by decide⟩
    · exact ⟨[name], h, by simp⟩

/-- In the code `mkdir` makes nothing. -/
theorem eq_init_of_run (hrun : Run step Growing init s) : s = init := by
  refine hrun.invariant (I := fun s => s = init) (fun {s op s'} hs hg hstep => ?_) rfl
  subst hs
  cases op with
  | mkdir this pid name copied =>
    rw [step, call, mkdir, if_pos (flat_init.flat this)] at hstep
    exact (Option.some.inj hstep).symm
  | _ => exact hg.elim

/-- The printed path of a directory leads back to it. -/
def LeadsBack (s : Vfs) (d : Slot) (names : List CStr) : Prop :=
  s.findSubDirFromCurDir rootNode (pathOf names) = some (some d)

/-- **The path of every directory is printed**, in a tree made by `mkdir`, but its lookup does not
    return in the code, nor does that of any other path. If there were directories, the path would
    lead back to the directory just if this one is in the root, and other paths would lead
    nowhere. -/
theorem lookup_iff_of_run {own : Bool} (hrun : Run step Growing (start own) s) :
    (∀ d ∉ s.lists .free, d ≠ rootNode → ∃ names, Spells s names d ∧ Printed s d names ∧
      (LeadsBack s d names ↔ own = true ∧ (s.nodes d).parent = some rootNode)) ∧
    ∀ names, names ≠ [] → (∀ name ∈ names, Proper name) → (¬∃ d, Spells s names d) →
      (s.findSubDirFromCurDir rootNode (pathOf names) = some none ↔ own = true) := by
  cases own with
  | true =>
    have hs : Grown s := hrun.invariant (fun hs hg hstep => hs.step hg hstep) grown_start
    refine ⟨fun d hd hroot => ?_, fun names hne hproper hnone => iff_of_true ?_ rfl⟩
    · obtain ⟨names, hspells, -⟩ := hs.spelt d hd
      refine ⟨names, hspells, (hs.descends hspells).printed, ?_⟩
      rw [LeadsBack, hs.lookup_iff hspells hroot, and_iff_right rfl]
    · obtain ⟨r, hr, hfound⟩ := hs.lookup hne hproper
      cases r with
      | none => exact hr
      | some d => exact absurd ⟨d, ((hfound d).1 rfl).1⟩ hnone
  | false =>
    obtain rfl := eq_init_of_run hrun
    refine ⟨fun d hd hroot => ?_, fun names hne hproper _ => ?_⟩
    · obtain ⟨name, hproper, hspells⟩ := (spells_start false hd).resolve_left fun h => hroot h.1
      have hdescends := hspells.descends (start_nodes false rootNode).2 parent_start
      refine ⟨[name], hspells, hdescends.printed, iff_of_false (fun h => ?_) fun h => nomatch h.1⟩
      rw [LeadsBack, lookup_eq_none flat_init.ownInit (List.cons_ne_nil _ _)
        fun nm hnm => List.mem_singleton.1 hnm ▸ hproper] at h
      exact nomatch h
    · rw [lookup_eq_none flat_init.ownInit hne hproper]
      exact iff_of_false nofun nofun

instance : ∀ s op, Decidable (Growing s op)
  | s, .mkdir this _ name _ => inferInstanceAs (Decidable (Proper name ∧ ¬∃ i ∈ s.children this, _))
  | _, .symlink .. | _, .link .. | _, .createdev .. | _, .addDev .. | _, .unlink .. | _, .rmdir ..
  | _, .deleteDev .. | _, .destroy .. | _, .renameChild .. => isFalse id

theorem zero_not_mem_a : 0 ∉ ['a'].map Char.toUInt8 := by decide

/-- The names of `/home/a`. -/
def homeA : List CStr :=
  [.ofChars ['h', 'o', 'm', 'e'] zero_not_mem_home, .ofChars ['a'] zero_not_mem_a]

/-- Making `/a` and `/home/a`. -/
def grow : List VfsOp :=
  [.mkdir rootNode 7 (.ofChars ['a'] zero_not_mem_a) true,
    .mkdir homeNode 7 (.ofChars ['a'] zero_not_mem_a) true]

/-- The directory `/home` of the code is printed. And if there were directories, `/a` would be
    found. -/
theorem lookup_grow : (∃ names, Spells init names homeNode ∧ Printed init homeNode names ∧
      ¬LeadsBack init homeNode names) ∧
    ∃ s, Run step Growing (start true) s ∧ (s.nodes 5).parent = some rootNode ∧
      ∃ names, Spells s names 5 ∧ LeadsBack s 5 names := by
  constructor
  · have hhome : homeNode ∉ init.lists .free := fun h => absurd (mem_start_free.1 h) (by decide)
    obtain ⟨names, hspells, hprinted, hlookup⟩ :=
      (lookup_iff_of_run (.refl : Run step Growing (start false) init)).1 homeNode hhome (by decide)
    exact ⟨names, hspells, hprinted, fun h => nomatch (hlookup.1 h).1⟩
  · obtain ⟨s, hrun, hs⟩ := Run.exists_of_execute (by decide +kernel :
      (execute step Growing (start true) grow).map
        (fun s => (decide (5 ∈ s.lists .free), (s.nodes 5).parent)) = some (false, some rootNode))
    obtain ⟨hfree, hparent⟩ := Prod.mk.inj hs
    obtain ⟨names, hspells, -, hfound⟩ :=
      (lookup_iff_of_run hrun).1 5 (of_decide_eq_false hfree) (by decide)
    exact ⟨s, hrun, hparent, names, hspells, hfound.2 ⟨rfl, hparent⟩⟩

/-- The path `/home` is printed, and its lookup does not return. And if there were directories, the
    path `/home/a` would be printed, but nothing found there. -/
theorem not_lookup : (Spells init [home] homeNode ∧ Printed init homeNode [home] ∧
      init.findSubDirFromCurDir rootNode (pathOf [home]) = none) ∧
    ∃ s m, Run step Growing (start true) s ∧ (s.nodes 6).nodeType = .Directory ∧
      s.getPathTo 6 (fun _ => 0) 256 = some (.ENONE, m) ∧ Holds m (pathOf homeA) ∧
      s.findSubDirFromCurDir rootNode (pathOf homeA) = some none := by
  constructor
  · have hchild : homeNode ∈ init.children rootNode := by decide +kernel
    refine ⟨(Spells.root.child hchild ⟨rfl, rfl⟩ : Spells init ([] ++ [home]) homeNode),
      descends_home.printed, lookup_eq_none flat_init.ownInit (List.cons_ne_nil _ _) ?_⟩
    decide
  · obtain ⟨s, hrun, hs⟩ := Run.exists_of_execute (by decide +kernel :
      (execute step Growing (start true) grow).map (fun s =>
        (decide ((s.nodes 6).nodeType = .Directory ∧
            s.findSubDirFromCurDir rootNode (pathOf homeA) = some none),
          (s.getPathTo 6 (fun _ => 0) 256).map fun r => (r.1, Bytes.bytes r.2 0 7, r.2 7))) =
        some (true, some (.ENONE, pathOf homeA, 0)))
    obtain ⟨hfound, hprint⟩ := Prod.mk.inj hs
    obtain ⟨htype, hnone⟩ := of_decide_eq_true hfound
    obtain ⟨⟨e, m⟩, hpath, heq⟩ := Option.map_eq_some_iff.1 hprint
    obtain ⟨rfl, hbytes⟩ := Prod.mk.inj heq
    exact ⟨s, m, hrun, htype, hpath, Prod.mk.inj hbytes, hnone⟩

end Vfs

end DemoOs
