import DemoOs.Fs.Ecc

/-!
# Error correction in the driver

`nand_calculate_ecc` and `nand_correct_data` (`nandecc.cpp`), the error correction of the NAND
driver: another table, the registers shifted together instead of their bits tested, and the first
two octets of the code the other way round, unless `CONFIG_MTD_NAND_ECC_SMC` is defined. It is the
code of yaffs all the same (`nandCalculateEcc_eq`), and corrected likewise, but that a wrong code is
left as it is (`nandCorrectData_eq`).
-/

namespace DemoOs

/-- `nand_ecc_precalc_table`. -/
def nandEccPrecalcTable : List (BitVec 8) :=
  [
    0x00, 0x55, 0x56, 0x03, 0x59, 0x0c, 0x0f, 0x5a, 0x5a, 0x0f, 0x0c, 0x59, 0x03, 0x56, 0x55, 0x00,
    0x65, 0x30, 0x33, 0x66, 0x3c, 0x69, 0x6a, 0x3f, 0x3f, 0x6a, 0x69, 0x3c, 0x66, 0x33, 0x30, 0x65,
    0x66, 0x33, 0x30, 0x65, 0x3f, 0x6a, 0x69, 0x3c, 0x3c, 0x69, 0x6a, 0x3f, 0x65, 0x30, 0x33, 0x66,
    0x03, 0x56, 0x55, 0x00, 0x5a, 0x0f, 0x0c, 0x59, 0x59, 0x0c, 0x0f, 0x5a, 0x00, 0x55, 0x56, 0x03,
    0x69, 0x3c, 0x3f, 0x6a, 0x30, 0x65, 0x66, 0x33, 0x33, 0x66, 0x65, 0x30, 0x6a, 0x3f, 0x3c, 0x69,
    0x0c, 0x59, 0x5a, 0x0f, 0x55, 0x00, 0x03, 0x56, 0x56, 0x03, 0x00, 0x55, 0x0f, 0x5a, 0x59, 0x0c,
    0x0f, 0x5a, 0x59, 0x0c, 0x56, 0x03, 0x00, 0x55, 0x55, 0x00, 0x03, 0x56, 0x0c, 0x59, 0x5a, 0x0f,
    0x6a, 0x3f, 0x3c, 0x69, 0x33, 0x66, 0x65, 0x30, 0x30, 0x65, 0x66, 0x33, 0x69, 0x3c, 0x3f, 0x6a,
    0x6a, 0x3f, 0x3c, 0x69, 0x33, 0x66, 0x65, 0x30, 0x30, 0x65, 0x66, 0x33, 0x69, 0x3c, 0x3f, 0x6a,
    0x0f, 0x5a, 0x59, 0x0c, 0x56, 0x03, 0x00, 0x55, 0x55, 0x00, 0x03, 0x56, 0x0c, 0x59, 0x5a, 0x0f,
    0x0c, 0x59, 0x5a, 0x0f, 0x55, 0x00, 0x03, 0x56, 0x56, 0x03, 0x00, 0x55, 0x0f, 0x5a, 0x59, 0x0c,
    0x69, 0x3c, 0x3f, 0x6a, 0x30, 0x65, 0x66, 0x33, 0x33, 0x66, 0x65, 0x30, 0x6a, 0x3f, 0x3c, 0x69,
    0x03, 0x56, 0x55, 0x00, 0x5a, 0x0f, 0x0c, 0x59, 0x59, 0x0c, 0x0f, 0x5a, 0x00, 0x55, 0x56, 0x03,
    0x66, 0x33, 0x30, 0x65, 0x3f, 0x6a, 0x69, 0x3c, 0x3c, 0x69, 0x6a, 0x3f, 0x65, 0x30, 0x33, 0x66,
    0x65, 0x30, 0x33, 0x66, 0x3c, 0x69, 0x6a, 0x3f, 0x3f, 0x6a, 0x69, 0x3c, 0x66, 0x33, 0x30, 0x65,
    0x00, 0x55, 0x56, 0x03, 0x59, 0x0c, 0x0f, 0x5a, 0x5a, 0x0f, 0x0c, 0x59, 0x03, 0x56, 0x55, 0x00]

/-- `idx & 0x3f`, and `idx & 0x40`. -/
def precalc (x : BitVec 8) : BitVec 8 × Bool :=
  let idx := nandEccPrecalcTable.getD x.toNat 0
  (idx &&& 0x3f, idx &&& 0x40 ≠ 0)

/-- `nand_calculate_ecc`; `smc` is whether `CONFIG_MTD_NAND_ECC_SMC` is defined. -/
def nandCalculateEcc (smc : Bool) (dat : Data) : Ecc :=
  let s := parities 8 precalc dat 256
  let reg1 := s.col
  let reg3 := s.line
  let reg2 := s.prime
  let tmp1 := (reg3 &&& 0x80) >>> 0 ||| (reg2 &&& 0x80) >>> 1 ||| (reg3 &&& 0x40) >>> 1 |||
    (reg2 &&& 0x40) >>> 2 |||
    (reg3 &&& 0x20) >>> 2 ||| (reg2 &&& 0x20) >>> 3 ||| (reg3 &&& 0x10) >>> 3 |||
      (reg2 &&& 0x10) >>> 4
  let tmp2 := (reg3 &&& 0x08) <<< 4 ||| (reg2 &&& 0x08) <<< 3 ||| (reg3 &&& 0x04) <<< 3 |||
    (reg2 &&& 0x04) <<< 2 |||
    (reg3 &&& 0x02) <<< 2 ||| (reg2 &&& 0x02) <<< 1 ||| (reg3 &&& 0x01) <<< 1 |||
      (reg2 &&& 0x01) <<< 0
  { b0 := if smc then ~~~tmp2 else ~~~tmp1
    b1 := if smc then ~~~tmp1 else ~~~tmp2
    b2 := ~~~reg1 <<< 2 ||| 0x03 }

/-- `for (; byte; byte >>= 1) res += byte & 0x01`, of `n` turns at most. -/
def countbitsLoop : ℕ → BitVec 32 → ℕ
  | 0, _ => 0
  | n + 1, byte => if byte = 0#32 then 0 else (byte &&& 1#32).toNat + countbitsLoop n (byte >>> 1)

/-- `countbits`: a word is zero after 32 shifts. -/
def countbits (byte : BitVec 32) : ℕ := countbitsLoop 32 byte

/-- `-EBADMSG`. -/
def badMsg : ℤ := -77

/-- `nand_correct_data`: what it returns, and the data it leaves. -/
def nandCorrectData (smc : Bool) (dat : Data) (readEcc calcEcc : Ecc) : ℤ × Data :=
  let s1 := if smc then calcEcc.b1 ^^^ readEcc.b1 else calcEcc.b0 ^^^ readEcc.b0
  let s0 := if smc then calcEcc.b0 ^^^ readEcc.b0 else calcEcc.b1 ^^^ readEcc.b1
  let s2 := calcEcc.b2 ^^^ readEcc.b2
  if s0 ||| s1 ||| s2 = 0#8 then (0, dat)
  else if (s0 ^^^ s0 >>> 1) &&& 0x55 = 0x55 ∧ (s1 ^^^ s1 >>> 1) &&& 0x55 = 0x55 ∧
      (s2 ^^^ s2 >>> 1) &&& 0x54 = 0x54 then
    let byteoffs := s1 <<< 0 &&& 0x80#8 ||| s1 <<< 1 &&& 0x40#8 ||| s1 <<< 2 &&& 0x20#8 |||
      s1 <<< 3 &&& 0x10#8 |||
      s0 >>> 4 &&& 0x08#8 ||| s0 >>> 3 &&& 0x04#8 ||| s0 >>> 2 &&& 0x02#8 ||| s0 >>> 1 &&& 0x01#8
    let bitnum := s2 >>> 5 &&& 0x04#8 ||| s2 >>> 4 &&& 0x02#8 ||| s2 >>> 3 &&& 0x01#8
    (1, flipBit dat byteoffs.toNat bitnum.toNat)
  else if countbits (s0.setWidth 32 ||| s1.setWidth 32 <<< 8 ||| s2.setWidth 32 <<< 16) = 1
    then (1, dat)
  else (badMsg, dat)

/-! ## The two codes -/

/-- The code of yaffs, in the order of the driver. -/
def Ecc.order (smc : Bool) (e : Ecc) : Ecc := if smc then e else ⟨e.b1, e.b0, e.b2⟩

variable {dat data : Data} {n : ℕ} {smc : Bool} {readEcc calcEcc : Ecc}

@[simp] theorem Ecc.order_order {e : Ecc} : (e.order smc).order smc = e := by
  cases smc <;> rfl

/-- The table is that of yaffs, without its lowest two bits, the lower of which it has in front. -/
theorem precalc_eq (x : BitVec 8) :
    precalc x = ((columnParity x).1 >>> 2 &&& 0x3f, (columnParity x).2) := by
  have htable : nandEccPrecalcTable =
      columnParityTable.map fun b : BitVec 8 => b >>> 2 &&& 0x3f#8 ||| (b &&& 0x01#8) <<< 6 := by
        decide +kernel
  have hparts : ∀ b : BitVec 8, (b >>> 2 &&& 0x3f#8 ||| (b &&& 0x01#8) <<< 6) &&& 0x3f#8 =
      b >>> 2 &&& 0x3f#8 ∧
      ((b >>> 2 &&& 0x3f#8 ||| (b &&& 0x01#8) <<< 6) &&& 0x40#8 ≠ 0 ↔ b &&& 0x01#8 ≠ 0) := by
        decide +kernel
  have hidx : nandEccPrecalcTable.getD x.toNat 0 =
      (columnParityTable.getD x.toNat 0) >>> 2 &&& 0x3f#8 |||
        (columnParityTable.getD x.toNat 0 &&& 0x01#8) <<< 6 := by
    rw [htable, List.getD, List.getD, List.getElem?_map]
    cases columnParityTable[x.toNat]? <;> rfl
  rw [precalc, columnParity, hidx]
  exact Prod.ext (hparts _).1 (decide_eq_decide.2 (hparts _).2)

theorem parities_precalc (w n : ℕ) : parities w precalc dat n =
    { parities w columnParity dat n with col := (parities w columnParity dat n).col >>> 2 &&&
      0x3f } := by
  have hxor : ∀ c d : BitVec 8, (c >>> 2 &&& 0x3f#8) ^^^ (d >>> 2 &&& 0x3f#8) =
      (c ^^^ d) >>> 2 &&& 0x3f#8 := fun c d => by
    refine BitVec.eq_of_getLsbD_eq fun i hi => ?_
    simp only [BitVec.getLsbD_and, BitVec.getLsbD_xor, BitVec.getLsbD_ushiftRight]
    cases c.getLsbD (2 + i) <;> cases d.getLsbD (2 + i) <;> cases (0x3f#8).getLsbD i <;> rfl
  induction n with
  | zero => simp [parities]
  | succ n ih =>
    rw [parities, parities, ih, precalc_eq]
    dsimp only
    exact congrArg (Parities.mk · _ _) (hxor _ _)

/-- Bit `a`, moved down. -/
theorem and_shiftRight_eq_pick (x : BitVec 8) (a : Fin 8) {mask bit : BitVec 8} {k : ℕ}
    (hmask : mask = 1#8 <<< a.val)
    (hbit : bit = 1#8 <<< (a.val - k)) (hk : k ≤ a) : (x &&& mask) >>> k = pick x mask bit := by
  subst hmask hbit
  refine BitVec.eq_of_getLsbD_eq fun i _ => ?_
  rw [getLsbD_pick x a, BitVec.getLsbD_ushiftRight, BitVec.getLsbD_and,
    getLsbD_one_shiftLeft a.isLt,
    getLsbD_one_shiftLeft (Nat.lt_of_le_of_lt (Nat.sub_le a k) a.isLt)]
  by_cases hi : k + i = a
  · rw [hi, show i = a - k by omega]
    simp
  · rw [decide_eq_false hi, decide_eq_false (show ¬i = a - k by omega), Bool.and_false,
      Bool.and_false]

/-- Bit `a`, moved up. -/
theorem and_shiftLeft_eq_pick (x : BitVec 8) (a : Fin 8) {mask bit : BitVec 8} {k : ℕ}
    (hmask : mask = 1#8 <<< a.val)
    (hbit : bit = 1#8 <<< (a.val + k)) (hk : a + k < 8) : (x &&& mask) <<< k = pick x mask bit := by
  subst hmask hbit
  refine BitVec.eq_of_getLsbD_eq fun i hi => ?_
  rw [getLsbD_pick x a, BitVec.getLsbD_shiftLeft, BitVec.getLsbD_and, getLsbD_one_shiftLeft a.isLt,
    getLsbD_one_shiftLeft hk, decide_eq_true hi]
  by_cases heq : i = a + k
  · subst heq
    simp
  · rw [decide_eq_false heq, Bool.and_false]
    by_cases hlt : i < k
    · simp [hlt]
    · simp [show ¬i - k = a by omega]

theorem nandCalculateEcc_eq : nandCalculateEcc smc dat = (eccCalc dat).order smc := by
  have hcol : ∀ c : BitVec 8, ~~~(c >>> 2 &&& 0x3f) <<< 2 ||| 0x03 = ~~~c ||| 0x03 := by
    decide +kernel
  -- Each line of the source moves one bit to its place.
  have htmp1 : ∀ x : BitVec 8, (x &&& 0x80) >>> 0 = pick x 0x80 0x80 ∧
      (x &&& 0x80) >>> 1 = pick x 0x80 0x40 ∧
      (x &&& 0x40) >>> 1 = pick x 0x40 0x20 ∧ (x &&& 0x40) >>> 2 = pick x 0x40 0x10 ∧
      (x &&& 0x20) >>> 2 = pick x 0x20 0x08 ∧ (x &&& 0x20) >>> 3 = pick x 0x20 0x04 ∧
      (x &&& 0x10) >>> 3 = pick x 0x10 0x02 ∧ (x &&& 0x10) >>> 4 = pick x 0x10 0x01 := fun x => by
    refine ⟨?_, ?_, ?_, ?_, ?_, ?_, ?_, ?_⟩
    · exact and_shiftRight_eq_pick x 7 rfl rfl (by decide)
    · exact and_shiftRight_eq_pick x 7 rfl rfl (by decide)
    · exact and_shiftRight_eq_pick x 6 rfl rfl (by decide)
    · exact and_shiftRight_eq_pick x 6 rfl rfl (by decide)
    · exact and_shiftRight_eq_pick x 5 rfl rfl (by decide)
    · exact and_shiftRight_eq_pick x 5 rfl rfl (by decide)
    · exact and_shiftRight_eq_pick x 4 rfl rfl (by decide)
    · exact and_shiftRight_eq_pick x 4 rfl rfl (by decide)
  have htmp2 : ∀ x : BitVec 8, (x &&& 0x08) <<< 4 = pick x 0x08 0x80 ∧
      (x &&& 0x08) <<< 3 = pick x 0x08 0x40 ∧
      (x &&& 0x04) <<< 3 = pick x 0x04 0x20 ∧ (x &&& 0x04) <<< 2 = pick x 0x04 0x10 ∧
      (x &&& 0x02) <<< 2 = pick x 0x02 0x08 ∧ (x &&& 0x02) <<< 1 = pick x 0x02 0x04 ∧
      (x &&& 0x01) <<< 1 = pick x 0x01 0x02 ∧ (x &&& 0x01) <<< 0 = pick x 0x01 0x01 := fun x => by
    refine ⟨?_, ?_, ?_, ?_, ?_, ?_, ?_, ?_⟩
    · exact and_shiftLeft_eq_pick x 3 rfl rfl (by decide)
    · exact and_shiftLeft_eq_pick x 3 rfl rfl (by decide)
    · exact and_shiftLeft_eq_pick x 2 rfl rfl (by decide)
    · exact and_shiftLeft_eq_pick x 2 rfl rfl (by decide)
    · exact and_shiftLeft_eq_pick x 1 rfl rfl (by decide)
    · exact and_shiftLeft_eq_pick x 1 rfl rfl (by decide)
    · exact and_shiftLeft_eq_pick x 0 rfl rfl (by decide)
    · exact and_shiftLeft_eq_pick x 0 rfl rfl (by decide)
  rw [nandCalculateEcc, parities_precalc, eccCalc, Parities.ecc, packLines, packLines, Ecc.order]
  dsimp only
  simp only [hcol, htmp1, htmp2]
  cases smc <;> rfl

/-- `countbits` counts what `hweight8` does. -/
theorem countbitsLoop_eq (n : ℕ) (x : BitVec 32) :
    countbitsLoop n x = ∑ k ∈ Finset.range n, (x.getLsbD k).toNat := by
  induction n generalizing x with
  | zero => rfl
  | succ n ih =>
    rw [countbitsLoop]
    split_ifs with hx
    · simp [hx]
    · have hlow : (x &&& 1#32).toNat = (x.getLsbD 0).toNat := by
        rw [BitVec.and_one_eq_setWidth_ofBool_getLsbD]
        cases x.getLsbD 0 <;> rfl
      rw [ih, hlow, Finset.sum_range_succ', Nat.add_comm]
      simp [Nat.add_comm]

theorem countbits_eq (s0 s1 s2 : BitVec 8) :
    countbits (s0.setWidth 32 ||| s1.setWidth 32 <<< 8 ||| s2.setWidth 32 <<< 16) =
      hweight8 s0 + hweight8 s1 + hweight8 s2 := by
  have hbits : ∀ k < 8,
      (s0.setWidth 32 ||| s1.setWidth 32 <<< 8 ||| s2.setWidth 32 <<< 16).getLsbD k = s0.getLsbD k ∧
      (s0.setWidth 32 ||| s1.setWidth 32 <<< 8 ||| s2.setWidth 32 <<< 16).getLsbD (8 + k) =
        s1.getLsbD k ∧
      (s0.setWidth 32 ||| s1.setWidth 32 <<< 8 ||| s2.setWidth 32 <<< 16).getLsbD (16 + k) =
        s2.getLsbD k ∧
      (s0.setWidth 32 ||| s1.setWidth 32 <<< 8 ||| s2.setWidth 32 <<< 16).getLsbD (24 + k) =
        false := fun k hk => by
    have hge : ∀ d : BitVec 8, ∀ i, 8 ≤ i → d.getLsbD i = false :=
      fun d i hi => BitVec.getLsbD_of_ge d i hi
    simp only [BitVec.getLsbD_or, BitVec.getLsbD_shiftLeft, BitVec.getLsbD_setWidth]
    refine ⟨?_, ?_, ?_, ?_⟩
    · simp [hk, show k < 16 by omega, show k < 32 by omega]
    · simp [show 8 + k < 16 by omega, show 8 + k < 32 by omega, show k < 32 by omega]
    · simp [hge s0 (16 + k) (by omega), hge s1 (16 + k - 8) (by omega),
        show 16 + k < 32 by omega, show k < 32 by omega]
    · simp [hge s0 (24 + k) (by omega), hge s1 (24 + k - 8) (by omega),
        hge s2 (24 + k - 16) (by omega)]
  rw [countbits, countbitsLoop_eq, Finset.sum_range_add _ 24 8, Finset.sum_range_add _ 16 8,
    Finset.sum_range_add _ 8 8, hweight8_eq, hweight8_eq, hweight8_eq]
  have hsum : ∀ {f g : ℕ → ℕ}, (∀ k < 8, f k = g k) →
      ∑ k ∈ Finset.range 8, f k = ∑ k ∈ Finset.range 8, g k := fun h =>
    Finset.sum_congr rfl fun k hk => h k (Finset.mem_range.1 hk)
  rw [hsum fun k hk => congrArg Bool.toNat (hbits k hk).1,
    hsum fun k hk => congrArg Bool.toNat (hbits k hk).2.1, hsum fun k hk =>
    congrArg Bool.toNat (hbits k hk).2.2.1, hsum fun k hk => congrArg Bool.toNat (hbits k hk).2.2.2]
  simp

/-- What yaffs does, but for the code and for what is returned. -/
theorem nandCorrectData_eq : nandCorrectData smc dat (readEcc.order smc) (calcEcc.order smc) =
    let r := eccCorrect dat readEcc calcEcc
    (if r.result = -1 then badMsg else r.result, r.data) := by
  -- Shifting and masking picks the bits that the other corrector picks one by one.
  have hs1 : ∀ x : BitVec 8, x <<< 0 &&& 0x80#8 = pick x 0x80 0x80 ∧
      x <<< 1 &&& 0x40#8 = pick x 0x20 0x40 ∧
      x <<< 2 &&& 0x20#8 = pick x 0x08 0x20 ∧ x <<< 3 &&& 0x10#8 = pick x 0x02 0x10 := by
        decide +kernel
  have hs0 : ∀ x : BitVec 8, x >>> 4 &&& 0x08#8 = pick x 0x80 0x08 ∧
      x >>> 3 &&& 0x04#8 = pick x 0x20 0x04 ∧
      x >>> 2 &&& 0x02#8 = pick x 0x08 0x02 ∧ x >>> 1 &&& 0x01#8 = pick x 0x02 0x01 := by
        decide +kernel
  have hs2 : ∀ x : BitVec 8, x >>> 5 &&& 0x04#8 = pick x 0x80 0x04 ∧
      x >>> 4 &&& 0x02#8 = pick x 0x20 0x02 ∧
      x >>> 3 &&& 0x01#8 = pick x 0x08 0x01 := by decide +kernel
  have hd1 : (if smc then (calcEcc.order smc).b1 ^^^ (readEcc.order smc).b1
      else (calcEcc.order smc).b0 ^^^ (readEcc.order smc).b0) = readEcc.b1 ^^^ calcEcc.b1 := by
    cases smc <;> exact BitVec.xor_comm ..
  have hd0 : (if smc then (calcEcc.order smc).b0 ^^^ (readEcc.order smc).b0
      else (calcEcc.order smc).b1 ^^^ (readEcc.order smc).b1) = readEcc.b0 ^^^ calcEcc.b0 := by
    cases smc <;> exact BitVec.xor_comm ..
  have hd2 : (calcEcc.order smc).b2 ^^^ (readEcc.order smc).b2 = readEcc.b2 ^^^ calcEcc.b2 := by
    cases smc <;> exact BitVec.xor_comm ..
  rw [nandCorrectData, eccCorrect]
  dsimp only
  rw [hd1, hd0, hd2]
  generalize readEcc.b0 ^^^ calcEcc.b0 = d0, readEcc.b1 ^^^ calcEcc.b1 = d1,
    readEcc.b2 ^^^ calcEcc.b2 = d2
  simp only [hs1, hs0, hs2, countbits_eq]
  -- The cases are those of `eccCorrect`, in its order.
  by_cases hclean : d0 ||| d1 ||| d2 = 0#8
  · rw [if_pos hclean, if_pos hclean]
    rfl
  · rw [if_neg hclean, if_neg hclean]
    split
    · rfl
    · split <;> rfl

end DemoOs
