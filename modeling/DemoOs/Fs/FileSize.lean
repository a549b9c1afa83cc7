import DemoOs.Fs.YaffsFile
import DemoOs.Lib.Run

/-!
# The cached size

The size a file node has, and the length of the file. Whatever is written is added to the size, by
`writeFile` and `writeFileExt`, also where it replaces what is in the file, or leaves a hole in
front of it. So the size is right as long as all that is written is written at the end of the file,
which is shorter than the 31 bits the node has for it (`sizes_iff`).

The calls are those of a file as POSIX has it: its length is that up to which there has been
written, or the one it has been given.
-/

namespace DemoOs.Yaffs

/-- An operation that may change the size, or ask for it. -/
inductive Access
  | op (y : Calls) (op : Op)
  | nRead

/-- The node, and the length of the file. -/
structure File where
  node : VFSFile
  length : ℕ

/-- The node after an operation. -/
def Op.run (y : Calls) (node : VFSFile) : Op → VFSFile
  | .readFile n => (Yaffs.readFile y node n).2
  | .readFileExt n pos => (Yaffs.readFileExt y node n pos).2
  | .writeFile n flags => (Yaffs.writeFile y node n flags).2
  | .writeFileExt n pos => (Yaffs.writeFileExt y node n pos).2
  | .seek offset => (Yaffs.seek y node offset).2
  | .truncate size => (Yaffs.truncate y node size).2

/-- The place and the number of the bytes an operation writes. -/
def Op.written (y : Calls) (node : VFSFile) : Op → Option (S32 × S32)
  | .writeFile n flags =>
    let start := (node.reposition flags).filePtr
    some (start, y.yaffs_pwrite n start)
  | .writeFileExt n pos => some (pos, y.yaffs_pwrite n pos)
  | _ => none

/-- The length the file is given. -/
def Op.resized (y : Calls) : Op → Option ℤ
  | .truncate size => if (y.yaffs_ftruncate size).1 = 0 then some size else none
  | _ => none

/-- A file is extended by what is written behind its end, with a hole in front of it if need be, and
    resized as requested. -/
def File.lengthAfter (f : File) (y : Calls) (op : Op) : ℕ :=
  match op.written y f.node, op.resized y with
  | some (start, r), _ => if r.1 > 0 then max f.length (start.1 + r.1).toNat else f.length
  | none, some size => size.toNat
  | none, none => f.length

/-- Nothing is written in front of the file, no length is negative, and `yaffs_fstat` has the length
    given. -/
def Posix (f : File) : Access → Prop
  | .op y op => (∀ w ∈ op.written y f.node, 0 < w.2.1 → 0 ≤ w.1.1) ∧
      ∀ size ∈ op.resized y, 0 ≤ size ∧ y.st_size = size
  | .nRead => True

instance (f : File) : (a : Access) → Decidable (Posix f a)
  | .op _ _ => instDecidableAnd
  | .nRead => instDecidableTrue

def File.step (f : File) : Access → Option File
  | .op y op => some ⟨op.run y f.node, f.lengthAfter y op⟩
  | .nRead => some f

/-- What `O_APPEND` is for. -/
def AppendsAtEnd (f : File) : Op → Prop
  | .writeFile _ flags => flags &&& O_APPEND ≠ 0 → (f.node.reposition flags).filePtr.1 = f.length
  | _ => True

/-- The size is the length of the file afterwards, what is appended begins at the end of the file,
    and `nRead` gives the number of bytes up to there. -/
def SizeCorrect (f : File) : Access → Prop
  | .op y op => (op.run y f.node).getSize.1 = f.lengthAfter y op ∧ AppendsAtEnd f op
  | .nRead => (nRead f.node).1 = f.length - f.node.filePtr

/-- Bytes are written only at the end of the file, and lengths and distances are less than
    `2^31`. -/
def AtEnd (f : File) : Access → Prop
  | .op y op =>
      (∀ w ∈ op.written y f.node, 0 < w.2.1 → w.1.1 = f.length ∧ f.length + w.2.1 < 2 ^ 31) ∧
      ∀ size ∈ op.resized y, size < 2 ^ 31
  | .nRead => f.length - f.node.filePtr.1 < 2 ^ 31

instance (f : File) : (a : Access) → Decidable (AtEnd f a)
  | .op _ _ => instDecidableAnd
  | .nRead => Int.decLt ..

variable {f f' : File} {y : Calls} {op : Op} {a : Access} {L : ℕ}

/-- The size is right. -/
def Sized (f : File) : Prop := f.node.getSize.1 = f.length

theorem reposition_getSize (node : VFSFile) (flags : ℕ) :
    (node.reposition flags).getSize = node.getSize := by
  rw [VFSFile.reposition]
  split_ifs <;> rfl

theorem Sized.appends (h : Sized f) (op : Op) : AppendsAtEnd f op := by
  cases op with
  | writeFile n flags =>
    intro hflags
    rw [VFSFile.reposition, if_pos hflags]
    exact h
  | _ => trivial

/-- What is written is added to the size, and a file that is given a length has its size from
    `yaffs_fstat`. -/
theorem run_getSize (y : Calls) (node : VFSFile) (op : Op) : (op.run y node).getSize =
    match op.written y node, op.resized y with
    | some (_, r), _ => if r.1 > 0 then .ofInt (node.getSize.1 + r.1) else node.getSize
    | none, some _ => .ofInt y.st_size
    | none, none => node.getSize := by
  cases op with
  | readFile n => rfl
  | readFileExt n pos => rfl
  | writeFile n flags =>
    simp only [Op.run, writeFile, Op.written]
    rw [← reposition_getSize node flags]
    split_ifs <;> rfl
  | writeFileExt n pos =>
    simp only [Op.run, writeFileExt, Op.written]
    split_ifs <;> rfl
  | seek offset =>
    simp only [Op.run, seek, Op.written, Op.resized]
    split_ifs <;> rfl
  | truncate size =>
    simp only [Op.run, truncate, Op.written, Op.resized]
    split_ifs <;> rfl

theorem resized_of_written {w : S32 × S32} (h : op.written y f.node = some w) :
    op.resized y = none := by
  cases op with
  | truncate size => simp [Op.written] at h
  | _ => rfl

/-- The sum of the size and what is written is the new length only at the end of the file. -/
theorem ofInt_eq_max_iff {size start r : S32} (hsize : size.1 = L) (hstart : 0 ≤ start.1)
    (hr : 0 < r.1) :
    (S32.ofInt (size.1 + r.1)).1 = (max L (start.1 + r.1).toNat : ℕ) ↔
    start.1 = L ∧ L + r.1 < 2 ^ 31 := by
  have hsize' := size.2
  have hr' := r.2
  simp only [S32.ofInt, sint, hsize]
  omega

theorem Sized.op_iff (h : Sized f) (hposix : Posix f (.op y op)) :
    (op.run y f.node).getSize.1 = f.lengthAfter y op ↔ AtEnd f (.op y op) := by
  rw [run_getSize, File.lengthAfter, AtEnd]
  cases hw : op.written y f.node with
  | some w =>
    obtain ⟨start, r⟩ := w
    rw [resized_of_written hw]
    dsimp only
    -- There is one place to be considered, and no length.
    refine Iff.trans ?_ (and_iff_left fun size hsize => by simp at hsize).symm
    simp only [Option.mem_some_iff, forall_eq']
    by_cases hr : r.1 > 0
    · rw [if_pos hr, if_pos hr, ofInt_eq_max_iff h (hposix.1 (start, r) hw hr) hr]
      exact (imp_iff_right hr).symm
    · rw [if_neg hr, if_neg hr]
      exact iff_of_true h fun hr' => absurd hr' hr
  | none =>
    refine Iff.trans ?_ (and_iff_right fun w hw => by simp at hw).symm
    cases hs : op.resized y with
    | none => exact iff_of_true h fun size hsize => by simp at hsize
    | some size =>
      obtain ⟨hpos, hst⟩ := hposix.2 size hs
      simp only [Option.mem_some_iff, forall_eq', hst, S32.ofInt, sint]
      omega

/-- One access is right exactly if it is at the end. -/
theorem Sized.correct_iff (h : Sized f) (hposix : Posix f a) : SizeCorrect f a ↔ AtEnd f a := by
  cases a with
  | op y op => exact (and_iff_left (h.appends op)).trans (h.op_iff hposix)
  | nRead =>
    have hsize := f.node.getSize.2
    have hptr := f.node.filePtr.2
    simp only [SizeCorrect, AtEnd, nRead, S32.ofInt, sint]
    rw [Sized] at h
    omega

theorem Sized.step (h : Sized f) (hposix : Posix f a) (hend : AtEnd f a)
    (hstep : f.step a = some f') : Sized f' := by
  cases a with
  | op y op =>
    obtain rfl := Option.some_inj.1 hstep
    exact ((h.correct_iff hposix).2 hend).1
  | nRead => exact Option.some_inj.1 hstep ▸ h

/-- In a run of accesses to a file whose size is right when it is opened, all is right exactly if
    bytes are written only at the end. -/
theorem sizes_iff {as : List Access} (hopen : Sized f) (hposix : Admissible File.step Posix f as) :
    Admissible File.step SizeCorrect f as ↔ Admissible File.step AtEnd f as :=
  Admissible.iff (fun h hposix => h.correct_iff hposix) (fun h hposix hend hstep =>
    h.step hposix hend hstep) hopen hposix

/-- Calls that read and write as many bytes as requested. -/
def succeeding : Calls :=
  ⟨fun n _ => .ofInt n, fun n _ => .ofInt n, fun offset => offset.1, fun _ => .ofInt 0, 0⟩

/-- Five bytes are appended, and the file pointer goes back to the beginning. -/
theorem sizes_append : Admissible File.step SizeCorrect ⟨⟨.ofInt 10, .ofInt 0⟩, 10⟩
    [.op succeeding (.writeFile 5 O_APPEND), .op succeeding (.seek (.ofInt 0)), .nRead] := by
  have hrun {P} : Admissible File.step P ⟨⟨.ofInt 10, .ofInt 0⟩, 10⟩
      [.op succeeding (.writeFile 5 O_APPEND), .op succeeding (.seek (.ofInt 0)), .nRead] ↔
      P ⟨⟨.ofInt 10, .ofInt 0⟩, 10⟩ (.op succeeding (.writeFile 5 O_APPEND)) ∧
        P ⟨⟨.ofInt 15, .ofInt 15⟩, 15⟩ (.op succeeding (.seek (.ofInt 0))) ∧
          P ⟨⟨.ofInt 15, .ofInt 0⟩, 15⟩ .nRead ∧ True :=
    (Admissible.cons_iff rfl).trans (and_congr_right fun _ => (Admissible.cons_iff rfl).trans
      (and_congr_right fun _ => Admissible.cons_iff rfl))
  have hopen : Sized ⟨⟨.ofInt 10, .ofInt 0⟩, 10⟩ := rfl
  refine (sizes_iff hopen ?_).2 ?_
  · exact hrun.2 (by decide)
  · exact hrun.2 (by decide)

/-- Five bytes at the beginning are replaced. -/
theorem not_sizes_overwrite : ∃ as, Admissible File.step Posix ⟨⟨.ofInt 10, .ofInt 0⟩, 10⟩ as ∧
    ¬Admissible File.step SizeCorrect ⟨⟨.ofInt 10, .ofInt 0⟩, 10⟩ as :=
  ⟨[.op succeeding (.writeFile 5 0)], ⟨by decide, fun _ _ => trivial⟩,
    fun h => absurd h.1.1 (by decide)⟩

end DemoOs.Yaffs
