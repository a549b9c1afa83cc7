import DemoOs.Fs.Ecc
import DemoOs.Fs.Endian
import Mathlib.Tactic.IntervalCases

/-!
# Packed tags

The tags of a chunk as they are kept in the spare area of yaffs2 (`yaffs_packedtags2.c`). A header
may have some of its contents packed into its tags: its chunk number is zero otherwise, and gives
its place to the parent and the flags, the upper bits of the object number to the type.

Tags in the form in which they are unpacked (`Canonical`) come back as they were packed
(`unpack_pack`). With the code kept along, they do so with one bit wrong as well, unless it makes
the sequence number that of an erased chunk, and two wrong bits are reported
(`unpackTags2_packTags2`).
-/

namespace DemoOs

open Syndrome EccOther

/-- `struct yaffs_packed_tags2_tags_only`. -/
@[ext]
structure TagsOnly where
  seqNumber : BitVec 32
  objId : BitVec 32
  chunkId : BitVec 32
  nBytes : BitVec 32

/-- `enum yaffs_ecc_result`. -/
inductive EccResult
  | UNKNOWN
  | NO_ERROR
  | FIXED
  | UNFIXED
  deriving DecidableEq

/-- `enum yaffs_obj_type`, those of its values that are told apart. -/
def objectTypeFile : BitVec 32 := 1
def objectTypeHardlink : BitVec 32 := 4

/-- `struct yaffs_ext_tags`. -/
@[ext]
structure ExtTags where
  chunkUsed : BitVec 32
  objId : BitVec 32
  chunkId : BitVec 32
  nBytes : BitVec 32
  eccResult : EccResult
  blockBad : BitVec 32
  isDeleted : BitVec 32
  serialNumber : BitVec 32
  seqNumber : BitVec 32
  extraAvailable : BitVec 32
  extraParentId : BitVec 32
  extraIsShrink : BitVec 32
  extraShadows : BitVec 32
  extraObjType : BitVec 32
  extraFileSize : BitVec 64
  extraEquivId : BitVec 32

/-- `memset(t, 0, sizeof(struct yaffs_ext_tags))`. -/
def ExtTags.zero : ExtTags := ⟨0, 0, 0, 0, .UNKNOWN, 0, 0, 0, 0, 0, 0, 0, 0, 0, 0, 0⟩

def extraHeaderInfoFlag : BitVec 32 := 0x80000000#32
def extraShrinkFlag : BitVec 32 := 0x40000000#32
def extraShadowsFlag : BitVec 32 := 0x20000000#32
def allExtraFlags : BitVec 32 := 0xf0000000#32
def extraObjectTypeShift : ℕ := 28
def extraObjectTypeMask : BitVec 32 := 0x0f#32 <<< extraObjectTypeShift

/-- `yaffs_do_endian_packed_tags2`. -/
def TagsOnly.doEndian (swapEndian : Bool) (ptt : TagsOnly) : TagsOnly :=
  if swapEndian then ⟨swapU32 ptt.seqNumber, swapU32 ptt.objId, swapU32 ptt.chunkId,
    swapU32 ptt.nBytes⟩ else ptt

/-- `yaffs_check_tags_extra_packable`. -/
def ExtTags.extraPackable (t : ExtTags) : Bool :=
  if t.chunkId ≠ 0 ∨ t.extraAvailable = 0 then false
  else if t.extraObjType = objectTypeFile ∧ t.extraFileSize.sshiftRight 31 ≠ 0 then false
  else true

/-- `yaffs_pack_tags2_tags_only`. -/
def packTags2TagsOnly (swapEndian : Bool) (t : ExtTags) : TagsOnly :=
  TagsOnly.doEndian swapEndian
    (if t.extraPackable then
      { seqNumber := t.seqNumber
        chunkId := extraHeaderInfoFlag ||| t.extraParentId |||
          (if t.extraIsShrink ≠ 0 then extraShrinkFlag else 0) |||
            (if t.extraShadows ≠ 0 then extraShadowsFlag else 0)
        objId := t.objId &&& ~~~extraObjectTypeMask ||| t.extraObjType <<< extraObjectTypeShift
        nBytes :=
          if t.extraObjType = objectTypeHardlink then t.extraEquivId
          else if t.extraObjType = objectTypeFile then t.extraFileSize.setWidth 32
          else 0 }
    else ⟨t.seqNumber, t.objId, t.chunkId, t.nBytes⟩)

/-- `yaffs_unpack_tags2_tags_only`. -/
def unpackTags2TagsOnly (swapEndian : Bool) (ptt : TagsOnly) : ExtTags :=
  if ptt.seqNumber = 0xffffffff#32 then .zero
  else
    let c := ptt.doEndian swapEndian
    let t := { ExtTags.zero with
      chunkUsed := 1, objId := c.objId, chunkId := c.chunkId, nBytes := c.nBytes,
        seqNumber := c.seqNumber }
    if c.chunkId &&& extraHeaderInfoFlag ≠ 0 then
      let extraObjType := c.objId >>> extraObjectTypeShift
      { t with
        chunkId := 0
        nBytes := 0
        extraAvailable := 1
        extraParentId := c.chunkId &&& ~~~allExtraFlags
        extraIsShrink := if c.chunkId &&& extraShrinkFlag ≠ 0 then 1 else 0
        extraShadows := if c.chunkId &&& extraShadowsFlag ≠ 0 then 1 else 0
        extraObjType := extraObjType
        objId := c.objId &&& ~~~extraObjectTypeMask
        extraEquivId := if extraObjType = objectTypeHardlink then c.nBytes else 0
        extraFileSize := if extraObjType = objectTypeHardlink then 0 else c.nBytes.setWidth 64 }
    else t

/-- A byte of a word, the first being the most significant one. -/
def wordByte (w : BitVec 32) (k : ℕ) : BitVec 8 := (w >>> (24 - 8 * k)).setWidth 8

/-- The word at an address. -/
def Data.word (d : Data) (i : ℕ) : BitVec 32 := d i ++ d (i + 1) ++ d (i + 2) ++ d (i + 3)

/-- `(unsigned char *) ptt`. -/
def TagsOnly.bytes (ptt : TagsOnly) : Data := fun i =>
  if i < 4 then wordByte ptt.seqNumber i
  else if i < 8 then wordByte ptt.objId (i - 4)
  else if i < 12 then wordByte ptt.chunkId (i - 8)
  else if i < 16 then wordByte ptt.nBytes (i - 12)
  else 0

/-- The tags of which these are the bytes. -/
def TagsOnly.ofBytes (d : Data) : TagsOnly := ⟨d.word 0, d.word 4, d.word 8, d.word 12⟩

/-- `struct yaffs_packed_tags2`. -/
structure PackedTags2 where
  t : TagsOnly
  ecc : EccOther

/-- `sizeof(struct yaffs_packed_tags2_tags_only)`. -/
def tagsOnlySize : ℕ := 16

/-- `yaffs_pack_tags2`; without a code, `ecc` is what was there. -/
def packTags2 (swapEndian tagsEcc : Bool) (t : ExtTags) (ecc : EccOther) : PackedTags2 :=
  let ptt := packTags2TagsOnly swapEndian t
  ⟨ptt, if tagsEcc then eccCalcOther ptt.bytes tagsOnlySize else ecc⟩

/-- `yaffs_unpack_tags2`: the tags, and the packed tags as they are left. -/
def unpackTags2 (swapEndian tagsEcc : Bool) (pt : PackedTags2) : ExtTags × PackedTags2 :=
  if pt.t.seqNumber ≠ 0xffffffff#32 ∧ tagsEcc then
    let r := eccCorrectOther pt.t.bytes tagsOnlySize pt.ecc (eccCalcOther pt.t.bytes tagsOnlySize)
    let pt : PackedTags2 := ⟨.ofBytes r.data, r.ecc⟩
    let eccResult : EccResult :=
      if r.result = 0 then .NO_ERROR else if r.result = 1 then .FIXED else if r.result = -1
        then .UNFIXED else .UNKNOWN
    ({ unpackTags2TagsOnly swapEndian pt.t with eccResult := eccResult }, pt)
  else ({ unpackTags2TagsOnly swapEndian pt.t with eccResult := .NO_ERROR }, pt)

/-! ## Words and bytes -/

variable {swapEndian : Bool} {t t' : ExtTags} {x y z : BitVec 32}

theorem TagsOnly.doEndian_doEndian (ptt : TagsOnly) :
    (ptt.doEndian swapEndian).doEndian swapEndian = ptt := by
  cases swapEndian
  · rfl
  · exact TagsOnly.ext (swapU32_swapU32 _) (swapU32_swapU32 _) (swapU32_swapU32 _)
      (swapU32_swapU32 _)

theorem TagsOnly.doEndian_seqNumber {ptt : TagsOnly} :
    (ptt.doEndian swapEndian).seqNumber = 0xffffffff#32 ↔ ptt.seqNumber = 0xffffffff#32 := by
  cases swapEndian
  · exact .rfl
  · exact swapU32_eq_ones

theorem append_wordByte (w : BitVec 32) :
    (wordByte w 0 ++ wordByte w 1 ++ wordByte w 2 ++ wordByte w 3 : BitVec 32) = w := by
  refine BitVec.eq_of_getLsbD_eq fun i hi => ?_
  simp only [wordByte, BitVec.getLsbD_append, BitVec.getLsbD_setWidth, BitVec.getLsbD_ushiftRight]
  by_cases h8 : i < 8
  · simp [h8]
  · by_cases h16 : i < 16
    · simp [h8, show i - 8 < 8 by omega, show 8 + (i - 8) = i by omega]
    · by_cases h24 : i < 24
      · simp [h8,
          show ¬i - 8 < 8 by omega, show i - 8 - 8 < 8 by omega, show 16 + (i - 8 - 8) = i by omega]
      · simp [h8,
          show ¬i - 8 < 8 by omega, show ¬i - 8 - 8 < 8 by omega, show i - 8 - 8 - 8 < 8 by omega,
          show 24 + (i - 8 - 8 - 8) = i by omega]

theorem wordByte_word {d : Data} {i k : ℕ} (hk : k < 4) : wordByte (d.word i) k = d (i + k) := by
  refine BitVec.eq_of_getLsbD_eq fun j hj => ?_
  simp only [wordByte, Data.word, BitVec.getLsbD_append, BitVec.getLsbD_setWidth,
    BitVec.getLsbD_ushiftRight]
  interval_cases k
  · simp [hj,
      show ¬24 + j < 8 by omega, show ¬24 + j - 8 < 8 by omega, show ¬24 + j - 8 - 8 < 8 by omega,
      show 24 + j - 8 - 8 - 8 = j by omega]
  · simp [hj,
      show ¬16 + j < 8 by omega, show ¬16 + j - 8 < 8 by omega, show 16 + j - 8 - 8 = j by omega]
  · simp [hj, show ¬8 + j < 8 by omega]
  · simp [hj]

theorem TagsOnly.ofBytes_bytes (ptt : TagsOnly) : .ofBytes ptt.bytes = ptt :=
  TagsOnly.ext (append_wordByte _) (append_wordByte _) (append_wordByte _) (append_wordByte _)

/-- Bytes beyond the tags make no difference. -/
theorem TagsOnly.bytes_ofBytes {d : Data} (h : ∀ i, 16 ≤ i → d i = 0) :
    (TagsOnly.ofBytes d).bytes = d := by
  funext i
  rw [bytes, ofBytes]
  dsimp only
  split_ifs with h4 h8 h12 h16
  · rw [wordByte_word h4, Nat.zero_add]
  · rw [wordByte_word (by omega), Nat.add_sub_cancel' (Nat.le_of_not_lt h4)]
  · rw [wordByte_word (by omega), Nat.add_sub_cancel' (Nat.le_of_not_lt h8)]
  · rw [wordByte_word (by omega), Nat.add_sub_cancel' (Nat.le_of_not_lt h12)]
  · exact (h i (Nat.le_of_not_lt h16)).symm

/-! ## Tags with extra contents -/

theorem and_or (x y z : BitVec 32) : (x ||| y) &&& z = x &&& z ||| y &&& z := by
  refine BitVec.eq_of_getLsbD_eq fun i hi => ?_
  simp only [BitVec.getLsbD_and, BitVec.getLsbD_or]
  cases x.getLsbD i <;> cases y.getLsbD i <;> cases z.getLsbD i <;> rfl

/-- A number below `2^28` does not reach the flags. -/
theorem and_not_flags (hx : x.toNat < 2 ^ 28) : x &&& ~~~allExtraFlags = x := by
  have hmask : ~~~allExtraFlags = 0x0fffffff#32 := by decide
  refine BitVec.eq_of_toNat_eq ?_
  rw [hmask, BitVec.toNat_and]
  exact (Nat.and_two_pow_sub_one_eq_mod x.toNat 28).trans (Nat.mod_eq_of_lt hx)

theorem and_flag (hx : x.toNat < 2 ^ 28) (hy : ~~~allExtraFlags &&& y = 0#32) : x &&& y = 0#32 := by
  rw [← and_not_flags hx, BitVec.and_assoc, hy, BitVec.and_zero]

/-- What comes back of tags that are packed: the extra contents of a header, if they can be packed,
    and otherwise the numbers of the object and the chunk and the length. The serial number is not
    kept, nor what is said of deletion and bad blocks. -/
def ExtTags.kept (t : ExtTags) : ExtTags :=
  if t.extraPackable then
    { ExtTags.zero with
      chunkUsed := 1
      objId := t.objId
      seqNumber := t.seqNumber
      extraAvailable := 1
      extraParentId := t.extraParentId
      extraIsShrink := if t.extraIsShrink ≠ 0 then 1 else 0
      extraShadows := if t.extraShadows ≠ 0 then 1 else 0
      extraObjType := t.extraObjType
      extraFileSize := if t.extraObjType = objectTypeFile then t.extraFileSize else 0
      extraEquivId := if t.extraObjType = objectTypeHardlink then t.extraEquivId else 0 }
  else
    { ExtTags.zero with
      chunkUsed := 1, objId := t.objId, chunkId := t.chunkId, nBytes := t.nBytes,
        seqNumber := t.seqNumber }

/-- The numbers are small enough to be told from the flags and from each other, and from those of an
    erased chunk. -/
structure ExtTags.Packable (t : ExtTags) : Prop where
  seqNumber : t.seqNumber ≠ 0xffffffff#32
  header : t.extraPackable = true → t.objId.toNat < 2 ^ 28 ∧ t.extraParentId.toNat < 2 ^ 28 ∧
    t.extraObjType.toNat < 16
  chunkId : t.extraPackable = false → t.chunkId.toNat < 2 ^ 31

theorem unpack_doEndian (ptt : TagsOnly) :
    unpackTags2TagsOnly swapEndian (ptt.doEndian swapEndian) = unpackTags2TagsOnly false ptt := by
  rw [unpackTags2TagsOnly, unpackTags2TagsOnly, TagsOnly.doEndian_doEndian]
  simp only [TagsOnly.doEndian_seqNumber]
  rfl

/-- The flags of a header, with and without its parent. -/
theorem flags_of_header (shrink shadows : BitVec 32) {parent : BitVec 32}
    (hparent : parent.toNat < 2 ^ 28) {c : BitVec 32}
    (hc : c = extraHeaderInfoFlag ||| parent ||| (if shrink ≠ 0 then extraShrinkFlag else 0) |||
      (if shadows ≠ 0 then extraShadowsFlag else 0)) :
    c &&& extraHeaderInfoFlag ≠ 0 ∧ c &&& ~~~allExtraFlags = parent ∧
      (if c &&& extraShrinkFlag ≠ 0 then 1#32 else 0) = (if shrink ≠ 0 then 1 else 0) ∧
        (if c &&& extraShadowsFlag ≠ 0 then 1#32 else 0) = (if shadows ≠ 0 then 1 else 0) := by
  have hheader := and_flag hparent (show ~~~allExtraFlags &&& extraHeaderInfoFlag = 0#32 by decide)
  have hflag₁ := and_flag hparent (show ~~~allExtraFlags &&& extraShrinkFlag = 0#32 by decide)
  have hflag₂ := and_flag hparent (show ~~~allExtraFlags &&& extraShadowsFlag = 0#32 by decide)
  have hrest := and_not_flags hparent
  subst hc
  simp only [and_or, hheader, hflag₁, hflag₂, hrest]
  by_cases hshrink : shrink = 0 <;> by_cases hshadows : shadows = 0 <;>
    simp only [hshrink, hshadows, ne_eq, not_true_eq_false, not_false_eq_true, if_true,
      if_false] <;>
    refine ⟨by decide, ?_, by decide, by decide⟩ <;>
    simp [extraHeaderInfoFlag, extraShrinkFlag, extraShadowsFlag, allExtraFlags]

/-- The type in the upper bits of the object number. -/
theorem type_of_object {obj type : BitVec 32} (hobj : obj.toNat < 2 ^ 28)
    (htype : type.toNat < 16) :
    (obj &&& ~~~extraObjectTypeMask ||| type <<< extraObjectTypeShift) >>> extraObjectTypeShift =
    type ∧
      (obj &&& ~~~extraObjectTypeMask ||| type <<< extraObjectTypeShift) &&&
      ~~~extraObjectTypeMask = obj := by
  have hmask : ~~~extraObjectTypeMask = ~~~allExtraFlags := by decide
  rw [hmask, and_not_flags hobj]
  constructor
  · refine BitVec.eq_of_getLsbD_eq fun i hi => ?_
    -- An id of 28 bits leaves the four bits above free.
    have hhigh : obj.getLsbD (28 + i) = false := by
      rw [← BitVec.testBit_toNat]
      exact Nat.testBit_lt_two_pow
        (hobj.trans_le (Nat.pow_le_pow_right (by decide) (Nat.le_add_right ..)))
    rw [BitVec.getLsbD_ushiftRight, BitVec.getLsbD_or, extraObjectTypeShift, hhigh, Bool.false_or,
      BitVec.getLsbD_shiftLeft, Nat.add_sub_cancel_left]
    by_cases h4 : i < 4
    · simp [show 28 + i < 32 by omega]
    · have : type.getLsbD i = false := by
        rw [← BitVec.testBit_toNat]
        exact Nat.testBit_lt_two_pow
          (htype.trans_le (Nat.pow_le_pow_right (n := 2) (by decide) (show 4 ≤ i by omega)))
      simp [this]
  · rw [and_or, and_not_flags hobj]
    have hlow : type <<< extraObjectTypeShift &&& ~~~allExtraFlags = 0#32 := by
      refine BitVec.eq_of_getLsbD_eq fun i hi => ?_
      have hmask : ∀ i : Fin 32, (~~~allExtraFlags).getLsbD i = decide (i.val < 28) := by
        decide +kernel
      have := hmask ⟨i, hi⟩
      rw [BitVec.getLsbD_and, this, extraObjectTypeShift, BitVec.getLsbD_shiftLeft,
        BitVec.getLsbD_zero]
      by_cases h28 : i < 28
      · simp [h28]
      · simp [h28]
    rw [hlow, BitVec.or_zero]

/-- The size of a file is packed if it is an `int` that is not negative. -/
theorem extraFileSize_lt (h : t.extraPackable = true) (hfile : t.extraObjType = objectTypeFile) :
    t.extraFileSize.toNat < 2 ^ 31 := by
  rw [ExtTags.extraPackable] at h
  split_ifs at h with _ hlarge
  have hshift : t.extraFileSize.sshiftRight 31 = 0 := by_contra fun hne => hlarge ⟨hfile, hne⟩
  cases hmsb : t.extraFileSize.msb with
  | true =>
    have hsign := congrArg BitVec.msb hshift
    rw [BitVec.msb_sshiftRight, hmsb] at hsign
    exact absurd hsign (by decide)
  | false =>
    rw [BitVec.sshiftRight_eq_of_msb_false hmsb] at hshift
    have hdiv := congrArg BitVec.toNat hshift
    rw [BitVec.toNat_ushiftRight, Nat.shiftRight_eq_div_pow] at hdiv
    exact Nat.lt_of_div_eq_zero (by decide) hdiv

/-- What is packed is unpacked. -/
theorem unpack_pack (h : t.Packable) :
    unpackTags2TagsOnly swapEndian (packTags2TagsOnly swapEndian t) = t.kept := by
  rw [packTags2TagsOnly, unpack_doEndian, ExtTags.kept]
  -- A data chunk is told from a header by the top bit of its number.
  cases hpackable : t.extraPackable with
  | false =>
    have hflag : t.chunkId &&& extraHeaderInfoFlag = 0#32 := by
      have hmask : t.chunkId &&& 0x7fffffff#32 = t.chunkId := by
        refine BitVec.eq_of_toNat_eq ?_
        rw [BitVec.toNat_and]
        exact (Nat.and_two_pow_sub_one_eq_mod t.chunkId.toNat 31).trans
          (Nat.mod_eq_of_lt (h.chunkId hpackable))
      have hnone : 0x7fffffff#32 &&& extraHeaderInfoFlag = 0#32 := by decide
      rw [← hmask, BitVec.and_assoc, hnone, BitVec.and_zero]
    rw [if_neg Bool.false_ne_true, if_neg Bool.false_ne_true, unpackTags2TagsOnly,
      if_neg h.seqNumber]
    simp only [TagsOnly.doEndian, Bool.false_eq_true, if_false, hflag, ne_eq]
    rfl
  | true =>
    obtain ⟨hobj, hparent, htype⟩ := h.header hpackable
    -- Flags and type are packed above the ids and come out again.
    obtain ⟨hheader, hrest, hflag₁, hflag₂⟩ :=
      flags_of_header t.extraIsShrink t.extraShadows hparent rfl
    obtain ⟨htypeOf, hobjOf⟩ := type_of_object hobj htype
    rw [if_pos rfl, if_pos rfl, unpackTags2TagsOnly, if_neg h.seqNumber]
    simp only [TagsOnly.doEndian, Bool.false_eq_true, if_false]
    rw [if_pos hheader]
    simp only [htypeOf, hobjOf, hrest]
    refine ExtTags.ext rfl rfl rfl rfl rfl rfl rfl rfl rfl rfl rfl hflag₁ hflag₂ rfl ?_ ?_
    · dsimp only
      split_ifs with hlink hfile hfile
      · exact absurd (hlink.symm.trans hfile) (by decide)
      · rfl
      · refine BitVec.eq_of_toNat_eq ?_
        have hlt := extraFileSize_lt hpackable hfile
        rw [BitVec.toNat_setWidth, BitVec.toNat_setWidth]
        omega
      · rfl
    · dsimp only
      split_ifs <;> rfl

/-! ## Wrong bits -/

namespace PackedTags2

/-- The bytes of the tags, and the code. -/
def stored (pt : PackedTags2) : Stored := ⟨pt.t.bytes, pt.ecc⟩

/-- A bit of the packed tags or of their code is flipped. -/
def fault (pt : PackedTags2) (f : Fault (PlaceIn tagsOnlySize) Lines) : PackedTags2 :=
  let s := pt.stored.fault f
  ⟨.ofBytes s.data, s.ecc⟩

variable {pt : PackedTags2} {f : Fault (PlaceIn tagsOnlySize) Lines}

theorem stored_fault : (pt.fault f).stored = pt.stored.fault f := by
  have hbytes : ∀ i, 16 ≤ i → (pt.stored.fault f).data i = 0 := fun i hi => by
    have hzero : pt.t.bytes i = 0 := by
      rw [TagsOnly.bytes, if_neg (by omega), if_neg (by omega), if_neg (by omega),
        if_neg (by omega)]
    rcases f with ⟨q, hq⟩ | ⟨k, b⟩
    · have hlt : q.1.toNat < 16 := hq
      have hne : i ≠ q.1.toNat := by omega
      exact (flipBit_of_ne hne).trans hzero
    · exact hzero
  exact congrArg (Stored.mk · _) (TagsOnly.bytes_ofBytes hbytes)

/-- What is unpacked of tags in use, once it is known how they are corrected. -/
theorem unpackTags2_eq (hused : pt.t.seqNumber ≠ 0xffffffff#32) {r : Corrected EccOther}
    (hr : pt.stored.correct tagsOnlySize = r) : unpackTags2 swapEndian true pt =
      ({ unpackTags2TagsOnly swapEndian (.ofBytes r.data) with
          eccResult := if r.result = 0 then .NO_ERROR else if r.result = 1 then .FIXED
            else if r.result = -1 then .UNFIXED else .UNKNOWN }, ⟨.ofBytes r.data, r.ecc⟩) := by
  have hcorrect :
      eccCorrectOther pt.t.bytes tagsOnlySize pt.ecc (eccCalcOther pt.t.bytes tagsOnlySize) = r :=
    hr
  rw [unpackTags2, if_pos ⟨hused, rfl⟩, hcorrect]

end PackedTags2

open PackedTags2

theorem packTags2_used (h : t.Packable) {tagsEcc : Bool} {ecc : EccOther} :
    (packTags2 swapEndian tagsEcc t ecc).t.seqNumber ≠ 0xffffffff#32 := by
  have hseq : (packTags2 swapEndian tagsEcc t ecc).t.seqNumber = 0xffffffff#32 ↔
      t.seqNumber = 0xffffffff#32 := by
    refine TagsOnly.doEndian_seqNumber.trans ?_
    split_ifs <;> exact .rfl
  exact mt hseq.1 h.seqNumber

/-- Tags come back, also with one bit of them or of their code wrong; two wrong bits are reported,
    and nothing is changed. This is so unless the tags have become those of an erased chunk. -/
theorem unpackTags2_packTags2 (swapEndian : Bool) (t : ExtTags) (ecc : EccOther) (h : t.Packable) :
    let pt := packTags2 swapEndian true t ecc
    unpackTags2 swapEndian true pt = ({ t.kept with eccResult := .NO_ERROR }, pt) ∧
      (∀ f, (pt.fault f).t.seqNumber ≠ 0xffffffff#32 →
        unpackTags2 swapEndian true (pt.fault f) = ({ t.kept with eccResult := .FIXED }, pt)) ∧
      ∀ f f', f ≠ f' → ((pt.fault f).fault f').t.seqNumber ≠ 0xffffffff#32 →
        unpackTags2 swapEndian true ((pt.fault f).fault f') =
          ({ unpackTags2TagsOnly swapEndian ((pt.fault f).fault f').t with eccResult := .UNFIXED },
            (pt.fault f).fault f') := by
  intro pt
  have hstored : pt.stored = .store (packTags2TagsOnly swapEndian t).bytes tagsOnlySize := rfl
  refine ⟨?_, fun f hused => ?_, fun f f' hne hused => ?_⟩
  · rw [unpackTags2_eq (packTags2_used h) (by rw [hstored, Stored.correct_store])]
    dsimp only
    rw [TagsOnly.ofBytes_bytes, unpack_pack h]
    rfl
  · rw [unpackTags2_eq hused (by rw [stored_fault, hstored, Stored.correct_fault])]
    dsimp only
    rw [TagsOnly.ofBytes_bytes, unpack_pack h]
    rfl
  · rw [unpackTags2_eq hused
      (by rw [stored_fault, stored_fault, hstored, Stored.correct_faults hne])]
    dsimp only
    rw [← hstored, ← stored_fault, ← stored_fault]
    simp only [stored, TagsOnly.ofBytes_bytes]
    rfl

/-- The tags of the header of a file, which has been written twice. -/
theorem unpackTags2_packTags2_header :
    let pt :=
      packTags2 true true ⟨0, 257, 0, 0, .UNKNOWN, 0, 0, 2, 4096, 1, 1, 0, 0, objectTypeFile, 12345,
      0⟩ ⟨0, 0, 0⟩
    unpackTags2 true true (pt.fault (.data ⟨(5, 3), by decide⟩)) =
      (⟨1, 257, 0, 0, .FIXED, 0, 0, 0, 4096, 1, 1, 0, 0, objectTypeFile, 12345, 0⟩, pt) :=
  (unpackTags2_packTags2 true ⟨0, 257, 0, 0, .UNKNOWN, 0, 0, 2, 4096, 1, 1, 0, 0, objectTypeFile,
    12345, 0⟩ ⟨0, 0, 0⟩
    ⟨by decide, by decide, by decide⟩).2.1 (.data ⟨(5, 3), by decide⟩) (by decide +kernel)

end DemoOs
