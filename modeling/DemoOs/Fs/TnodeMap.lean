import Mathlib.Data.Nat.Bitwise
import Mathlib.Logic.Function.Basic
import Mathlib.Tactic.SplitIfs

/-!
# The entries of a tnode

A tnode of level 0 of yaffs has 16 entries of `tnode_width` bits each, one behind the other in its
words, so that an entry may begin in a word and end in the next (`yaffs_load_tnode_0`,
`yaffs_get_group_base` of `yaffs_guts.c`). An entry is the number of a group of chunks, the first of
which is read from it.

What is loaded is read again, with the bits cut off that are below those of a group or beyond the
width, and the other entries stay as they are (`getGroupBase_load_self`, `getGroupBase_load_of_ne`).
-/

namespace DemoOs

/-- Of the device: `tnode_width`, as `yaffs_guts_initialise` sets it, and `chunk_grp_bits`. -/
structure TnodeDev where
  tnodeWidth : ℕ
  chunkGrpBits : ℕ
  width_ge : 16 ≤ tnodeWidth
  width_lt : tnodeWidth < 32
  width_even : 2 ∣ tnodeWidth
  bits_le : tnodeWidth + chunkGrpBits ≤ 32

/-- The loop of `calc_shifts_ceiling`: `extra_bits` and `shifts`. -/
def shiftsLoop (x : ℕ) : ℕ × ℕ :=
  if x ≤ 1 then (0, 0) else ((shiftsLoop (x >>> 1)).1 + (x &&& 1), (shiftsLoop (x >>> 1)).2 + 1)
decreasing_by all_goals rw [Nat.shiftRight_eq_div_pow, pow_one]; omega

/-- `calc_shifts_ceiling`. -/
def calcShiftsCeiling (x : ℕ) : ℕ :=
  if (shiftsLoop x).1 = 0 then (shiftsLoop x).2 else (shiftsLoop x).2 + 1

theorem shiftsLoop_spec {x : ℕ} (hx : 0 < x) : 2 ^ (shiftsLoop x).2 ≤ x ∧
    x < 2 ^ (shiftsLoop x).2 * 2 ∧
    ((shiftsLoop x).1 = 0 ↔ x = 2 ^ (shiftsLoop x).2) := by
  induction x using shiftsLoop.induct with
  | case1 x hle =>
    obtain rfl : x = 1 := by omega
    rw [shiftsLoop, if_pos hle]
    decide
  | case2 x hgt ih =>
    have hshift : x >>> 1 = x / 2 := Nat.shiftRight_eq_div_pow x 1
    obtain ⟨hlow, hhigh, hzero⟩ := ih (by omega)
    rw [shiftsLoop, if_neg hgt, Nat.and_one_is_mod, pow_succ]
    dsimp only
    rw [hshift] at hlow hhigh hzero ⊢
    omega

theorem le_calcShiftsCeiling (x : ℕ) : x ≤ 2 ^ calcShiftsCeiling x := by
  rcases Nat.eq_zero_or_pos x with rfl | hx
  · exact Nat.zero_le _
  obtain ⟨-, hhigh, hzero⟩ := shiftsLoop_spec hx
  rw [calcShiftsCeiling]
  split_ifs with hextra
  · exact le_of_eq (hzero.1 hextra)
  · rw [pow_succ]
    exact le_of_lt hhigh

theorem calcShiftsCeiling_le {x k : ℕ} (hx : x ≤ 2 ^ k) : calcShiftsCeiling x ≤ k := by
  rcases Nat.eq_zero_or_pos x with rfl | hpos
  · rw [calcShiftsCeiling, shiftsLoop]
    exact Nat.zero_le _
  obtain ⟨hlow, -, hzero⟩ := shiftsLoop_spec hpos
  rw [calcShiftsCeiling]
  split_ifs with hextra
  · exact (Nat.pow_le_pow_iff_right Nat.one_lt_two).1 (hlow.trans hx)
  · have hne : x ≠ 2 ^ (shiftsLoop x).2 := fun h => hextra (hzero.2 h)
    exact (Nat.pow_lt_pow_iff_right Nat.one_lt_two).1
      (lt_of_lt_of_le (lt_of_le_of_ne hlow hne.symm) hx)

/-- The widths that `yaffs_guts_initialise` sets, for a device of `x` chunks. -/
def TnodeDev.ofChunks (x : ℕ) (wideTnodesDisabled : Bool) (hx : x ≤ 2 ^ 30) : TnodeDev :=
  let bits := if wideTnodesDisabled then calcShiftsCeiling x
    else calcShiftsCeiling x + calcShiftsCeiling x % 2
  have hbits : bits ≤ 30 := by
    have := calcShiftsCeiling_le hx
    dsimp only [bits]
    split_ifs <;> omega
  have heven : wideTnodesDisabled = false → 2 ∣ bits := fun h => by
    dsimp only [bits]
    rw [h]
    simp only [Bool.false_eq_true, if_false]
    omega
  { tnodeWidth := if wideTnodesDisabled then 16 else if bits < 16 then 16 else bits
    chunkGrpBits := bits - (if wideTnodesDisabled then 16 else if bits < 16 then 16 else bits)
    width_ge := by split_ifs <;> omega
    width_lt := by split_ifs <;> omega
    width_even := by
      split_ifs with hwide hsmall
      · decide
      · decide
      · exact heven (by simpa using hwide)
    bits_le := by split_ifs <;> omega }

/-- The number of a chunk of the device has no more bits than are kept of it. -/
theorem TnodeDev.lt_of_ofChunks {x n : ℕ} {wide : Bool} (hx : x ≤ 2 ^ 30) (hn : n < x) :
    n < 2 ^ ((ofChunks x wide hx).tnodeWidth + (ofChunks x wide hx).chunkGrpBits) := by
  have hbits :
      calcShiftsCeiling x ≤
      (ofChunks x wide hx).tnodeWidth + (ofChunks x wide hx).chunkGrpBits := by
    dsimp only [ofChunks]
    split_ifs <;> omega
  exact lt_of_lt_of_le hn ((le_calcShiftsCeiling x).trans (Nat.pow_le_pow_right Nat.two_pos hbits))

/-- The words of a tnode of level 0. -/
abbrev TnodeMap := ℕ → BitVec 32

namespace TnodeDev

variable (dev : TnodeDev)

/-- `tnode_mask`. -/
def tnodeMask : BitVec 32 := 1#32 <<< dev.tnodeWidth - 1

/-- `yaffs_load_tnode_0`. -/
def loadTnode0 (map : TnodeMap) (pos : ℕ) (val : BitVec 32) : TnodeMap :=
  let pos := pos % 16
  let val := val >>> dev.chunkGrpBits
  let bitInMap := pos * dev.tnodeWidth
  let wordInMap := bitInMap / 32
  let bitInWord := bitInMap % 32
  let mask := dev.tnodeMask <<< bitInWord
  let map :=
    Function.update map wordInMap (map wordInMap &&& ~~~mask ||| mask &&& val <<< bitInWord)
  if 32 - bitInWord < dev.tnodeWidth then
    let bitInWord := 32 - bitInWord
    let wordInMap := wordInMap + 1
    let mask := dev.tnodeMask >>> bitInWord
    Function.update map wordInMap (map wordInMap &&& ~~~mask ||| mask &&& val >>> bitInWord)
  else map

/-- `yaffs_get_group_base`. -/
def getGroupBase (map : TnodeMap) (pos : ℕ) : BitVec 32 :=
  let pos := pos % 16
  let bitInMap := pos * dev.tnodeWidth
  let wordInMap := bitInMap / 32
  let bitInWord := bitInMap % 32
  let val := map wordInMap >>> bitInWord
  let val := if 32 - bitInWord < dev.tnodeWidth
    then val ||| map (wordInMap + 1) <<< (32 - bitInWord) else val
  (val &&& dev.tnodeMask) <<< dev.chunkGrpBits

/-- `tnode_size / sizeof(u32)`. -/
def tnodeSizeU32 : ℕ := max (dev.tnodeWidth * 16 / 8) 32 / 4

/-! ## Bits -/

/-- A bit of the words, counted from that of lowest value of the first word. -/
def bitOf (map : TnodeMap) (i : ℕ) : Bool := (map (i / 32)).getLsbD (i % 32)

/-- What is left of a value once it is loaded. -/
def cut (val : BitVec 32) : BitVec 32 :=
  (val >>> dev.chunkGrpBits &&& dev.tnodeMask) <<< dev.chunkGrpBits

variable {dev} {map : TnodeMap} {pos pos' i k : ℕ} {val : BitVec 32}

theorem getLsbD_tnodeMask (hk : k < 32) :
    dev.tnodeMask.getLsbD k = decide (k < dev.tnodeWidth) := by
  have hmask : dev.tnodeMask = BitVec.ofNat 32 (2 ^ dev.tnodeWidth - 1) := by
    have hpow : 2 ^ dev.tnodeWidth < 2 ^ 32 := Nat.pow_lt_pow_right (by decide) dev.width_lt
    have hpos := Nat.two_pow_pos dev.tnodeWidth
    have hone : (1 : BitVec 32).toNat = 1 := rfl
    refine BitVec.eq_of_toNat_eq ?_
    rw [tnodeMask, BitVec.toNat_sub, BitVec.toNat_shiftLeft, BitVec.toNat_ofNat, BitVec.toNat_ofNat,
      Nat.shiftLeft_eq, hone]
    omega
  rw [hmask, BitVec.getLsbD_ofNat, Nat.testBit_two_pow_sub_one, decide_eq_true hk, Bool.true_and]

/-- Writing under a mask. -/
theorem getLsbD_masked (x mask v : BitVec 32) (hk : k < 32) :
    (x &&& ~~~mask ||| mask &&& v).getLsbD k = if mask.getLsbD k then v.getLsbD k
    else x.getLsbD k := by
  rw [BitVec.getLsbD_or, BitVec.getLsbD_and, BitVec.getLsbD_and, BitVec.getLsbD_not,
    decide_eq_true hk]
  cases mask.getLsbD k <;> simp

/-- Of the bits, those of the entry are written. -/
theorem bitOf_load (hpos : pos < 16) (i : ℕ) : bitOf (dev.loadTnode0 map pos val) i =
    if pos * dev.tnodeWidth ≤ i ∧ i < pos * dev.tnodeWidth + dev.tnodeWidth then
      (val >>> dev.chunkGrpBits).getLsbD (i - pos * dev.tnodeWidth)
    else bitOf map i := by
  have hlt := dev.width_lt
  have hb : i % 32 < 32 := Nat.mod_lt _ (by decide)
  rw [bitOf, bitOf, loadTnode0]
  dsimp only
  rw [Nat.mod_eq_of_lt hpos]
  generalize val >>> dev.chunkGrpBits = v, pos * dev.tnodeWidth = start
  -- What the second word gets, and what the first word gets.
  have hfirst : ∀ b < 32, (map (start / 32) &&& ~~~(dev.tnodeMask <<< (start % 32)) |||
      dev.tnodeMask <<< (start % 32) &&& v <<< (start % 32)).getLsbD b =
        if start % 32 ≤ b ∧ b - start % 32 < dev.tnodeWidth then v.getLsbD (b - start % 32)
        else (map (start / 32)).getLsbD b := fun b hb => by
    rw [getLsbD_masked _ _ _ hb, BitVec.getLsbD_shiftLeft, BitVec.getLsbD_shiftLeft,
      getLsbD_tnodeMask (by omega), decide_eq_true hb]
    by_cases hle : start % 32 ≤ b
    · simp [hle, Nat.not_lt.2 hle]
    · simp [hle, Nat.lt_of_not_le hle]
  have hsecond : 32 - start % 32 < dev.tnodeWidth → ∀ b < 32,
      (map (start / 32 + 1) &&& ~~~(dev.tnodeMask >>> (32 - start % 32)) |||
        dev.tnodeMask >>> (32 - start % 32) &&& v >>> (32 - start % 32)).getLsbD b =
          if 32 - start % 32 + b < dev.tnodeWidth then v.getLsbD (32 - start % 32 + b)
          else (map (start / 32 + 1)).getLsbD b := fun hspan b hb => by
    rw [getLsbD_masked _ _ _ hb, BitVec.getLsbD_ushiftRight, BitVec.getLsbD_ushiftRight]
    by_cases hin : 32 - start % 32 + b < 32
    · rw [getLsbD_tnodeMask hin]
      simp only [decide_eq_true_eq]
    · rw [BitVec.getLsbD_of_ge _ _ (Nat.not_lt.1 hin), if_neg Bool.false_ne_true, if_neg (by omega)]
  rw [Function.update_of_ne (Nat.succ_ne_self (start / 32))]
  by_cases hword : i / 32 = start / 32
  · have hvalue : ∀ x,
        (if 32 - start % 32 < dev.tnodeWidth then Function.update (Function.update map (start / 32)
        x) (start / 32 + 1) (map (start / 32 + 1) &&& ~~~(dev.tnodeMask >>> (32 - start % 32)) |||
          dev.tnodeMask >>> (32 - start % 32) &&& v >>> (32 - start % 32))
            else Function.update map (start / 32) x) (i / 32) =
            x := fun x => by
      rw [hword]
      split_ifs
      · rw [Function.update_of_ne (Nat.succ_ne_self _).symm, Function.update_self]
      · exact Function.update_self ..
    rw [hvalue, hfirst _ hb, hword]
    refine if_congr ⟨fun h => ⟨by omega, by omega⟩, fun h => ⟨by omega, by omega⟩⟩
      (congrArg _ (by omega)) rfl
  · by_cases hspan : 32 - start % 32 < dev.tnodeWidth
    · rw [if_pos hspan]
      by_cases hnext : i / 32 = start / 32 + 1
      · rw [hnext, Function.update_self, hsecond hspan _ hb]
        exact if_congr ⟨fun h => ⟨by omega, by omega⟩, fun h => by omega⟩
          (congrArg _ (by omega)) rfl
      · rw [Function.update_of_ne hnext, Function.update_of_ne hword, if_neg (by omega)]
    · rw [if_neg hspan, Function.update_of_ne hword, if_neg (by omega)]

/-- The bits that are read are those of the entry. -/
theorem getLsbD_getGroupBase (hpos : pos < 16) (hk : k < 32) :
    (dev.getGroupBase map pos).getLsbD k =
    (decide (dev.chunkGrpBits ≤ k ∧ k - dev.chunkGrpBits < dev.tnodeWidth) &&
      bitOf map (pos * dev.tnodeWidth + (k - dev.chunkGrpBits))) := by
  have hlt := dev.width_lt
  rw [getGroupBase, Nat.mod_eq_of_lt hpos, BitVec.getLsbD_shiftLeft, decide_eq_true hk]
  generalize pos * dev.tnodeWidth = start, hj : k - dev.chunkGrpBits = j
  by_cases hle : dev.chunkGrpBits ≤ k
  · rw [decide_eq_false (Nat.not_lt.2 hle), BitVec.getLsbD_and, getLsbD_tnodeMask (by omega)]
    by_cases hwidth : j < dev.tnodeWidth
    · rw [decide_eq_true hwidth, decide_eq_true ⟨hle, hwidth⟩, bitOf]
      simp only [Bool.not_false, Bool.true_and, Bool.and_true]
      -- The bit is in the first word, or in the second.
      by_cases hfirst : start % 32 + j < 32
      · have hword : (start + j) / 32 = start / 32 := by omega
        have hbit : (start + j) % 32 = start % 32 + j := by omega
        rw [hword, hbit]
        split_ifs
        · rw [BitVec.getLsbD_or, BitVec.getLsbD_ushiftRight, BitVec.getLsbD_shiftLeft,
            decide_eq_true (show j < 32 - start % 32 by omega)]
          simp
        · rw [BitVec.getLsbD_ushiftRight]
      · have hword : (start + j) / 32 = start / 32 + 1 := by omega
        have hbit : (start + j) % 32 = j - (32 - start % 32) := by omega
        rw [if_pos (by omega), hword, hbit, BitVec.getLsbD_or, BitVec.getLsbD_ushiftRight,
          BitVec.getLsbD_shiftLeft, BitVec.getLsbD_of_ge _ _ (Nat.not_lt.1 hfirst),
          decide_eq_false (show ¬j < 32 - start % 32 by omega),
          decide_eq_true (show j < 32 by omega)]
        simp
    · rw [decide_eq_false hwidth, decide_eq_false fun h => hwidth h.2]
      simp
  · rw [decide_eq_true (Nat.lt_of_not_le hle), decide_eq_false fun h => hle h.1]
    simp

theorem getLsbD_cut (hk : k < 32) : (dev.cut val).getLsbD k =
    (decide (dev.chunkGrpBits ≤ k ∧ k - dev.chunkGrpBits < dev.tnodeWidth) &&
      (val >>> dev.chunkGrpBits).getLsbD (k - dev.chunkGrpBits)) := by
  rw [cut, BitVec.getLsbD_shiftLeft, BitVec.getLsbD_and, decide_eq_true hk,
    getLsbD_tnodeMask (by omega)]
  by_cases hle : dev.chunkGrpBits ≤ k
  · simp [hle, Nat.not_lt.2 hle, Bool.and_comm]
  · simp [hle, Nat.lt_of_not_le hle]

theorem cut_zero : dev.cut 0 = 0 := by simp [cut]

/-- What is kept of a chunk's number is the number of its group's first chunk. -/
theorem toNat_cut (hval : val.toNat < 2 ^ (dev.tnodeWidth + dev.chunkGrpBits)) :
    (dev.cut val).toNat = val.toNat / 2 ^ dev.chunkGrpBits * 2 ^ dev.chunkGrpBits := by
  have hbits := dev.bits_le
  have hdiv : val.toNat / 2 ^ dev.chunkGrpBits < 2 ^ dev.tnodeWidth := by
    rw [pow_add] at hval
    exact Nat.div_lt_of_lt_mul (by rwa [Nat.mul_comm])
  have hmask : dev.tnodeMask.toNat = 2 ^ dev.tnodeWidth - 1 := by
    refine Nat.eq_of_testBit_eq fun k => ?_
    rw [Nat.testBit_two_pow_sub_one, ← BitVec.getLsbD]
    by_cases hk : k < 32
    · exact getLsbD_tnodeMask hk
    · have hwidth := dev.width_lt
      rw [BitVec.getLsbD_of_ge _ _ (Nat.not_lt.1 hk), decide_eq_false (by omega)]
  have hle : val.toNat / 2 ^ dev.chunkGrpBits * 2 ^ dev.chunkGrpBits ≤ val.toNat :=
    Nat.div_mul_le_self ..
  have hval := val.isLt
  rw [cut, BitVec.toNat_shiftLeft, BitVec.toNat_and, BitVec.toNat_ushiftRight, hmask,
    Nat.shiftRight_eq_div_pow, Nat.and_two_pow_sub_one_eq_mod, Nat.mod_eq_of_lt hdiv,
    Nat.shiftLeft_eq, Nat.mod_eq_of_lt (by omega)]

theorem getGroupBase_load_self (hpos : pos < 16) :
    dev.getGroupBase (dev.loadTnode0 map pos val) pos = dev.cut val := by
  refine BitVec.eq_of_getLsbD_eq fun k hk => ?_
  rw [getLsbD_getGroupBase hpos hk, getLsbD_cut hk]
  by_cases hin : dev.chunkGrpBits ≤ k ∧ k - dev.chunkGrpBits < dev.tnodeWidth
  · rw [bitOf_load hpos, if_pos ⟨by omega, by omega⟩, Nat.add_sub_cancel_left]
  · rw [decide_eq_false hin, Bool.false_and, Bool.false_and]

/-- Entries are apart. -/
theorem getGroupBase_load_of_ne (hpos : pos < 16) (hpos' : pos' < 16) (hne : pos' ≠ pos) :
    dev.getGroupBase (dev.loadTnode0 map pos val) pos' = dev.getGroupBase map pos' := by
  refine BitVec.eq_of_getLsbD_eq fun k hk => ?_
  rw [getLsbD_getGroupBase hpos' hk, getLsbD_getGroupBase hpos' hk]
  by_cases hin : dev.chunkGrpBits ≤ k ∧ k - dev.chunkGrpBits < dev.tnodeWidth
  · rw [bitOf_load hpos, if_neg]
    rcases Nat.lt_or_gt_of_ne hne with hlt | hgt
    · have := Nat.mul_le_mul_right dev.tnodeWidth (Nat.succ_le_of_lt hlt)
      rw [Nat.succ_mul] at this
      omega
    · have := Nat.mul_le_mul_right dev.tnodeWidth (Nat.succ_le_of_lt hgt)
      rw [Nat.succ_mul] at this
      omega
  · rw [decide_eq_false hin, Bool.false_and, Bool.false_and]

theorem getGroupBase_mod (map : TnodeMap) (pos : ℕ) :
    dev.getGroupBase map (pos % 16) = dev.getGroupBase map pos := by
  simp only [getGroupBase, Nat.mod_mod]

theorem loadTnode0_mod (map : TnodeMap) (pos : ℕ) (val : BitVec 32) :
    dev.loadTnode0 map (pos % 16) val = dev.loadTnode0 map pos val := by
  simp only [loadTnode0, Nat.mod_mod]

theorem tnodeSizeU32_eq : dev.tnodeSizeU32 = dev.tnodeWidth / 2 := by
  have hge := dev.width_ge
  rw [tnodeSizeU32]
  omega

/-- No word behind those of the tnode is read. -/
theorem getGroupBase_congr {map' : TnodeMap}
    (h : ∀ i < dev.tnodeSizeU32, map i = map' i) (pos : ℕ) :
    dev.getGroupBase map pos = dev.getGroupBase map' pos := by
  rw [← getGroupBase_mod, ← getGroupBase_mod map']
  have hpos : pos % 16 < 16 := Nat.mod_lt _ (by decide)
  refine BitVec.eq_of_getLsbD_eq fun k hk => ?_
  rw [getLsbD_getGroupBase hpos hk, getLsbD_getGroupBase hpos hk]
  by_cases hin : dev.chunkGrpBits ≤ k ∧ k - dev.chunkGrpBits < dev.tnodeWidth
  · have hword : (pos % 16 * dev.tnodeWidth + (k - dev.chunkGrpBits)) / 32 < dev.tnodeSizeU32 := by
      have hle := Nat.mul_le_mul_right dev.tnodeWidth (Nat.le_sub_one_of_lt hpos)
      have heven := dev.width_even
      rw [tnodeSizeU32_eq]
      omega
    rw [bitOf, bitOf, h _ hword]
  · rw [decide_eq_false hin, Bool.false_and, Bool.false_and]

theorem getGroupBase_zeros (pos : ℕ) : dev.getGroupBase (fun _ => 0) pos = 0 := by
  simp [getGroupBase]

/-- Each bit of the words is one of an entry. -/
theorem exists_entry_of_word {i : ℕ} (hi : i < dev.tnodeSizeU32) (hne : map i ≠ 0) :
    ∃ pos < 16, dev.getGroupBase map pos ≠ 0 := by
  have hge := dev.width_ge
  have heven := dev.width_even
  have hbits := dev.bits_le
  obtain ⟨k, hk, hset⟩ : ∃ k < 32, (map i).getLsbD k = true := by
    by_contra hall
    push Not at hall
    exact hne (BitVec.eq_of_getLsbD_eq fun k hk => by simpa using hall k hk)
  rw [tnodeSizeU32_eq] at hi
  have hdiv : (32 * i + k) / dev.tnodeWidth < 16 := Nat.div_lt_of_lt_mul (by omega)
  have hmod : (32 * i + k) % dev.tnodeWidth < dev.tnodeWidth := Nat.mod_lt _ (by omega)
  refine ⟨(32 * i + k) / dev.tnodeWidth, hdiv, fun hzero => ?_⟩
  have hbit : (dev.getGroupBase map ((32 * i + k) / dev.tnodeWidth)).getLsbD
      (dev.chunkGrpBits + (32 * i + k) % dev.tnodeWidth) = _ := getLsbD_getGroupBase hdiv (by omega)
  rw [hzero, decide_eq_true ⟨by omega, by omega⟩, Bool.true_and, Nat.add_sub_cancel_left,
    Nat.div_add_mod', bitOf,
    show (32 * i + k) / 32 = i by omega, show (32 * i + k) % 32 = k by omega, hset] at hbit
  exact absurd hbit (by simp)

end TnodeDev

end DemoOs
