import DemoOs.Types
import Mathlib.Tactic.SplitIfs

/-!
# Files of the flash file system

The operations on the file pointer and the cached size of a file node (`yaffs2.cpp`, `vfsfile.h`).
What the file system below does is a parameter: `Yaffs` has the results of its calls during one
operation.

Operations that fail leave the node alone, all but one: `readFile` adjusts the file pointer by what
`yaffs_pread` returns, whatever that is, and so moves it back by one if that is -1 (`failure_iff`).
-/

namespace DemoOs.Yaffs

/-- `s32`, which is `off_t`, `ssize_t` and `sint` as well. -/
abbrev S32 := {n : ℤ // -2 ^ 31 ≤ n ∧ n < 2 ^ 31}

theorem sint_bounds (n : ℤ) : -2 ^ 31 ≤ sint n ∧ sint n < 2 ^ 31 := by
  rw [sint]
  omega

/-- What is stored in 32 bits. -/
def S32.ofInt (n : ℤ) : S32 := ⟨sint n, sint_bounds n⟩

/-- `VFSFile`. -/
@[ext]
structure VFSFile where
  fileSize : S32
  offsetPtr : S32
  deriving DecidableEq

namespace VFSFile

def getSize (node : VFSFile) : S32 := node.fileSize

def filePtr (node : VFSFile) : S32 := node.offsetPtr

def adjustFilePtr (node : VFSFile) (ofs : S32) : VFSFile :=
  { node with offsetPtr := .ofInt (node.offsetPtr + ofs) }

def setFilePtr (node : VFSFile) (ofs : S32) : VFSFile := { node with offsetPtr := ofs }

def adjustSize (node : VFSFile) (ofs : S32) : VFSFile :=
  { node with fileSize := .ofInt (node.fileSize + ofs) }

def setSize (node : VFSFile) (ofs : S32) : VFSFile := { node with fileSize := ofs }

end VFSFile

/-- The results of the calls: of a number of bytes and an offset, of an offset, of a length, and
    `st_size`. -/
structure Calls where
  yaffs_pread : ℕ → S32 → S32
  yaffs_pwrite : ℕ → S32 → S32
  yaffs_lseek : S32 → ℤ
  yaffs_ftruncate : ℤ → S32
  st_size : ℤ

/-- What is returned where it is not a number of bytes. -/
inductive Status
  | ENONE
  | EIO
  deriving DecidableEq

def O_APPEND : ℕ := 0x0008

variable (y : Calls) (node : VFSFile)

def readFile (stMaxBytes : ℕ) : S32 × VFSFile :=
  let readSize := y.yaffs_pread stMaxBytes node.filePtr
  (readSize, node.adjustFilePtr readSize)

def readFileExt (stMaxBytes : ℕ) (oftPos : S32) : S32 × VFSFile :=
  (y.yaffs_pread stMaxBytes oftPos, node)

/-- The node at the beginning of a write. -/
def VFSFile.reposition (node : VFSFile) (flags : ℕ) : VFSFile :=
  if flags &&& O_APPEND ≠ 0 then node.setFilePtr node.getSize else node

/-- What is flushed in the end, by `O_SYNC` or `O_DSYNC`, is not the node. -/
def writeFile (stNBytes flags : ℕ) : S32 × VFSFile :=
  let node := node.reposition flags
  let sstWriteNum := y.yaffs_pwrite stNBytes node.filePtr
  (sstWriteNum, if sstWriteNum.1 > 0
    then (node.adjustFilePtr sstWriteNum).adjustSize sstWriteNum else node)

def writeFileExt (stNBytes : ℕ) (oftPos : S32) : S32 × VFSFile :=
  let writeSize := y.yaffs_pwrite stNBytes oftPos
  (writeSize, if writeSize.1 > 0 then node.adjustSize writeSize else node)

def seek (oftOffset : S32) : Status × VFSFile :=
  let oftRet := S32.ofInt (y.yaffs_lseek oftOffset)
  if oftRet ≠ oftOffset then
    let ret := Status.EIO
    (ret, node)
  else (.ENONE, node.setFilePtr oftOffset)

def nRead : S32 := .ofInt (node.getSize - node.filePtr)

def truncate (oftSize : ℤ) : Status × VFSFile :=
  if (y.yaffs_ftruncate oftSize).1 = 0 then (.ENONE, node.setSize (.ofInt y.st_size))
  else
    let ret := Status.EIO
    (ret, node)

/-! ## Failure -/

/-- The operations. -/
inductive Op
  | readFile (stMaxBytes : ℕ)
  | readFileExt (stMaxBytes : ℕ) (oftPos : S32)
  | writeFile (stNBytes flags : ℕ)
  | writeFileExt (stNBytes : ℕ) (oftPos : S32)
  | seek (oftOffset : S32)
  | truncate (oftSize : ℤ)

/-- What fails leaves the node as it was, but for the repositioning by `O_APPEND`, and what is read
    or written advances the file pointer. -/
def FailureLeaves : Op → Prop
  | .readFile n =>
    let (r, node') := readFile y node n
    (r.1 < 0 → node' = node) ∧ (0 ≤ r.1 → node'.filePtr.1 = node.filePtr + r)
  | .readFileExt n pos =>
    let (r, node') := readFileExt y node n pos
    r.1 < 0 → node' = node
  | .writeFile n flags =>
    let (r, node') := writeFile y node n flags
    (r.1 < 0 → node' = node.reposition flags) ∧
      (0 ≤ r.1 → node'.filePtr.1 = (node.reposition flags).filePtr + r)
  | .writeFileExt n pos =>
    let (r, node') := writeFileExt y node n pos
    r.1 < 0 → node' = node
  | .seek offset =>
    let (r, node') := seek y node offset
    r ≠ .ENONE → node' = node
  | .truncate size =>
    let (r, node') := truncate y node size
    r ≠ .ENONE → node' = node

/-- `yaffs_pread` does not fail where it would adjust the file pointer, and the file pointer has
    room. -/
def Advances : Op → Prop
  | .readFile n => 0 ≤ (y.yaffs_pread n node.filePtr).1 ∧
      node.filePtr.1 + y.yaffs_pread n node.filePtr < 2 ^ 31
  | .writeFile n flags =>
    let start := (node.reposition flags).filePtr
    start.1 + y.yaffs_pwrite n start < 2 ^ 31
  | _ => True

variable {y node}

/-- A sum of which the second part is not negative is stored exactly if it is not too large. -/
theorem ofInt_add_iff {a b : S32} (hb : 0 ≤ b.1) : (S32.ofInt (a.1 + b.1)).1 = a.1 + b.1 ↔
    a.1 + b.1 < 2 ^ 31 := by
  have ha := a.2
  constructor
  · intro h
    exact h ▸ (S32.ofInt (a.1 + b.1)).2.2
  · intro h
    exact sint_eq (by omega) h

/-- A sum of which the second part is negative is stored as something else than the first. -/
theorem ofInt_add_ne {a b : S32} (hb : b.1 < 0) : S32.ofInt (a.1 + b.1) ≠ a := fun h => by
  obtain ⟨a, hle, hlt⟩ := a
  obtain ⟨b, hle', hlt'⟩ := b
  have hval : sint (a + b) = a := congrArg Subtype.val h
  rw [sint] at hval
  dsimp only at hb
  omega

theorem readFile_leaves_iff (n : ℕ) : FailureLeaves y node (.readFile n) ↔
    Advances y node (.readFile n) := by
  simp only [FailureLeaves, Advances, readFile]
  generalize y.yaffs_pread n node.filePtr = r
  rcases Int.lt_or_le r.1 0 with hr | hr
  · refine iff_of_false (fun h => ?_) fun h => absurd h.1 (Int.not_le.2 hr)
    exact ofInt_add_ne hr (congrArg VFSFile.offsetPtr (h.1 hr))
  · refine (and_iff_right fun h => absurd h (Int.not_lt.2 hr)).trans ?_
    exact (imp_iff_right hr).trans ((ofInt_add_iff hr).trans (and_iff_right hr).symm)

theorem writeFile_leaves_iff (n flags : ℕ) :
    FailureLeaves y node (.writeFile n flags) ↔ Advances y node (.writeFile n flags) := by
  simp only [FailureLeaves, Advances, writeFile]
  generalize node.reposition flags = start
  generalize y.yaffs_pwrite n start.filePtr = r
  have hstart := start.filePtr.2
  rcases Int.lt_trichotomy r.1 0 with hr | hr | hr
  · refine iff_of_true ⟨fun _ => if_neg (by omega), fun h => absurd h (Int.not_le.2 hr)⟩ (by omega)
  · refine iff_of_true ⟨fun h => absurd h (by omega), fun _ => ?_⟩ (by omega)
    rw [if_neg (by omega), hr, Int.add_zero]
  · rw [if_pos hr]
    refine (and_iff_right fun h => absurd h (by omega)).trans ?_
    exact (imp_iff_right (Int.le_of_lt hr)).trans (ofInt_add_iff (Int.le_of_lt hr))

/-- When what fails leaves the node as it was, and what succeeds advances the file pointer. -/
theorem failure_iff (y : Calls) (node : VFSFile) (op : Op) : FailureLeaves y node op ↔
    Advances y node op := by
  cases op with
  | readFile n => exact readFile_leaves_iff n
  | readFileExt n pos => exact iff_of_true (fun _ => rfl) trivial
  | writeFile n flags => exact writeFile_leaves_iff n flags
  | writeFileExt n pos =>
      exact iff_of_true (fun hr => if_neg (Int.not_lt.2 (Int.le_of_lt hr))) trivial
  | seek offset =>
    refine iff_of_true ?_ trivial
    simp only [FailureLeaves, seek]
    split_ifs
    · exact fun _ => rfl
    · exact fun h => absurd rfl h
  | truncate size =>
    refine iff_of_true ?_ trivial
    simp only [FailureLeaves, truncate]
    split_ifs
    · exact fun h => absurd rfl h
    · exact fun _ => rfl

/-- A `yaffs_pread` that fails at the position 10. -/
theorem not_failure :
    ¬FailureLeaves ⟨fun _ _ => .ofInt (-1), fun _ _ => .ofInt (-1), fun _ => -1,
      fun _ => .ofInt (-1), 100⟩
      ⟨.ofInt 100, .ofInt 10⟩ (.readFile 5) := by
  rintro ⟨hfail, -⟩
  exact absurd (congrArg VFSFile.offsetPtr (hfail (by decide))) (by decide)

end DemoOs.Yaffs
