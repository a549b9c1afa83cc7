import DemoOs.Lib.PairCode
import Mathlib.Algebra.BigOperators.Fin
import Mathlib.Logic.Function.Basic
import Mathlib.Tactic.FinCases

/-!
# Error correction

The codes by which single wrong bits are corrected: those of 256 bytes in yaffs (`yaffs_ecc_calc`,
`yaffs_ecc_correct` of `yaffs_ecc.c`), of any number of bytes (`yaffs_ecc_calc_other`,
`yaffs_ecc_correct_other`), and those of the driver below (`nand_calculate_ecc`, `nand_correct_data`
of `nandecc.cpp`).

All of them are pairs of parities: a place is a byte and a bit in it, a line is a bit of the number
of one or the other, and its parities are those of the places where this bit is set, and where it is
not. The correcting functions answer as the verdict on the syndrome does, so that one wrong bit is
corrected, in the data or in the code, and two are found out.
-/

namespace DemoOs

/-- What a pointer to data points to. -/
abbrev Data := ℕ → BitVec 8

/-- `data[i] ^= 1 << j`. -/
def flipBit (data : Data) (i j : ℕ) : Data := Function.update data i (data i ^^^ 1#8 <<< j)

/-- `if (x & mask) t |= bit`: what `t` gets. -/
def pick (x mask bit : BitVec 8) : BitVec 8 := if x &&& mask ≠ 0 then bit else 0

/-! ## Parities -/

/-- What a calculation collects: the parities of the columns, those of the lines, and those of what
    is off them. -/
structure Parities (w : ℕ) where
  col : BitVec 8
  line : BitVec w
  prime : BitVec w

/-- Both have effect. -/
def Parities.add {w : ℕ} (s t : Parities w) : Parities w :=
  ⟨s.col ^^^ t.col, s.line ^^^ t.line, s.prime ^^^ t.prime⟩

/-- The loop of a calculation, after `i` turns. `entry` is what its table has for a byte: the
    parities of the columns, and whether the byte is odd. -/
def parities (w : ℕ) (entry : BitVec 8 → BitVec 8 × Bool) (data : Data) : ℕ → Parities w
  | 0 => ⟨0, 0, 0⟩
  | i + 1 =>
    let s := parities w entry data i
    let b := entry (data i)
    { col := s.col ^^^ b.1
      line := if b.2 then s.line ^^^ BitVec.ofNat w i else s.line
      prime := if b.2 then s.prime ^^^ ~~~BitVec.ofNat w i else s.prime }

/-- `column_parity_table`. -/
def columnParityTable : List (BitVec 8) :=
  [
    0x00, 0x55, 0x59, 0x0c, 0x65, 0x30, 0x3c, 0x69, 0x69, 0x3c, 0x30, 0x65, 0x0c, 0x59, 0x55, 0x00,
    0x95, 0xc0, 0xcc, 0x99, 0xf0, 0xa5, 0xa9, 0xfc, 0xfc, 0xa9, 0xa5, 0xf0, 0x99, 0xcc, 0xc0, 0x95,
    0x99, 0xcc, 0xc0, 0x95, 0xfc, 0xa9, 0xa5, 0xf0, 0xf0, 0xa5, 0xa9, 0xfc, 0x95, 0xc0, 0xcc, 0x99,
    0x0c, 0x59, 0x55, 0x00, 0x69, 0x3c, 0x30, 0x65, 0x65, 0x30, 0x3c, 0x69, 0x00, 0x55, 0x59, 0x0c,
    0xa5, 0xf0, 0xfc, 0xa9, 0xc0, 0x95, 0x99, 0xcc, 0xcc, 0x99, 0x95, 0xc0, 0xa9, 0xfc, 0xf0, 0xa5,
    0x30, 0x65, 0x69, 0x3c, 0x55, 0x00, 0x0c, 0x59, 0x59, 0x0c, 0x00, 0x55, 0x3c, 0x69, 0x65, 0x30,
    0x3c, 0x69, 0x65, 0x30, 0x59, 0x0c, 0x00, 0x55, 0x55, 0x00, 0x0c, 0x59, 0x30, 0x65, 0x69, 0x3c,
    0xa9, 0xfc, 0xf0, 0xa5, 0xcc, 0x99, 0x95, 0xc0, 0xc0, 0x95, 0x99, 0xcc, 0xa5, 0xf0, 0xfc, 0xa9,
    0xa9, 0xfc, 0xf0, 0xa5, 0xcc, 0x99, 0x95, 0xc0, 0xc0, 0x95, 0x99, 0xcc, 0xa5, 0xf0, 0xfc, 0xa9,
    0x3c, 0x69, 0x65, 0x30, 0x59, 0x0c, 0x00, 0x55, 0x55, 0x00, 0x0c, 0x59, 0x30, 0x65, 0x69, 0x3c,
    0x30, 0x65, 0x69, 0x3c, 0x55, 0x00, 0x0c, 0x59, 0x59, 0x0c, 0x00, 0x55, 0x3c, 0x69, 0x65, 0x30,
    0xa5, 0xf0, 0xfc, 0xa9, 0xc0, 0x95, 0x99, 0xcc, 0xcc, 0x99, 0x95, 0xc0, 0xa9, 0xfc, 0xf0, 0xa5,
    0x0c, 0x59, 0x55, 0x00, 0x69, 0x3c, 0x30, 0x65, 0x65, 0x30, 0x3c, 0x69, 0x00, 0x55, 0x59, 0x0c,
    0x99, 0xcc, 0xc0, 0x95, 0xfc, 0xa9, 0xa5, 0xf0, 0xf0, 0xa5, 0xa9, 0xfc, 0x95, 0xc0, 0xcc, 0x99,
    0x95, 0xc0, 0xcc, 0x99, 0xf0, 0xa5, 0xa9, 0xfc, 0xfc, 0xa9, 0xa5, 0xf0, 0x99, 0xcc, 0xc0, 0x95,
    0x00, 0x55, 0x59, 0x0c, 0x65, 0x30, 0x3c, 0x69, 0x69, 0x3c, 0x30, 0x65, 0x0c, 0x59, 0x55, 0x00]

/-- `b = column_parity_table[x]`, and `b & 0x01`. -/
def columnParity (x : BitVec 8) : BitVec 8 × Bool :=
  let b := columnParityTable.getD x.toNat 0
  (b, b &&& 0x01 ≠ 0)

/-- `yaffs_count_bits_table`. -/
def countBitsTable : List ℕ :=
  [
    0, 1, 1, 2, 1, 2, 2, 3, 1, 2, 2, 3, 2, 3, 3, 4, 1, 2, 2, 3, 2, 3, 3, 4, 2, 3, 3, 4, 3, 4, 4, 5,
    1, 2, 2, 3, 2, 3, 3, 4, 2, 3, 3, 4, 3, 4, 4, 5, 2, 3, 3, 4, 3, 4, 4, 5, 3, 4, 4, 5, 4, 5, 5, 6,
    1, 2, 2, 3, 2, 3, 3, 4, 2, 3, 3, 4, 3, 4, 4, 5, 2, 3, 3, 4, 3, 4, 4, 5, 3, 4, 4, 5, 4, 5, 5, 6,
    2, 3, 3, 4, 3, 4, 4, 5, 3, 4, 4, 5, 4, 5, 5, 6, 3, 4, 4, 5, 4, 5, 5, 6, 4, 5, 5, 6, 5, 6, 6, 7,
    1, 2, 2, 3, 2, 3, 3, 4, 2, 3, 3, 4, 3, 4, 4, 5, 2, 3, 3, 4, 3, 4, 4, 5, 3, 4, 4, 5, 4, 5, 5, 6,
    2, 3, 3, 4, 3, 4, 4, 5, 3, 4, 4, 5, 4, 5, 5, 6, 3, 4, 4, 5, 4, 5, 5, 6, 4, 5, 5, 6, 5, 6, 6, 7,
    2, 3, 3, 4, 3, 4, 4, 5, 3, 4, 4, 5, 4, 5, 5, 6, 3, 4, 4, 5, 4, 5, 5, 6, 4, 5, 5, 6, 5, 6, 6, 7,
    3, 4, 4, 5, 4, 5, 5, 6, 4, 5, 5, 6, 5, 6, 6, 7, 4, 5, 5, 6, 5, 6, 6, 7, 5, 6, 6, 7, 6, 7, 7, 8]

def hweight8 (x : BitVec 8) : ℕ := countBitsTable.getD x.toNat 0

def hweight32 (x : BitVec 32) : ℕ :=
  hweight8 ((x &&& 0xff#32).setWidth 8) + hweight8 ((x >>> 8 &&& 0xff#32).setWidth 8) +
    hweight8 ((x >>> 16 &&& 0xff#32).setWidth 8) + hweight8 ((x >>> 24 &&& 0xff#32).setWidth 8)

/-! ## The code of 256 bytes -/

/-- `unsigned char ecc[3]`. -/
@[ext]
structure Ecc where
  b0 : BitVec 8
  b1 : BitVec 8
  b2 : BitVec 8

/-- What a correcting function returns, and the data and the code it leaves. -/
structure Corrected (ε : Type) where
  result : ℤ
  data : Data
  ecc : ε

/-- The complement of an octet of the code, collected from four lines. -/
def packLines (line prime m₃ m₂ m₁ m₀ : BitVec 8) : BitVec 8 :=
  pick line m₃ 0x80 ||| pick prime m₃ 0x40 ||| pick line m₂ 0x20 ||| pick prime m₂ 0x10 |||
    pick line m₁ 0x08 ||| pick prime m₁ 0x04 ||| pick line m₀ 0x02 ||| pick prime m₀ 0x01

/-- The code of the parities. -/
def Parities.ecc (s : Parities 8) : Ecc where
  b2 := ~~~s.col ||| 0x03
  b1 := ~~~packLines s.line s.prime 0x80 0x40 0x20 0x10
  b0 := ~~~packLines s.line s.prime 0x08 0x04 0x02 0x01

/-- `yaffs_ecc_calc`. -/
def eccCalc (data : Data) : Ecc := (parities 8 columnParity data 256).ecc

/-- `yaffs_ecc_correct`. -/
def eccCorrect (data : Data) (readEcc testEcc : Ecc) : Corrected Ecc :=
  let d0 := readEcc.b0 ^^^ testEcc.b0
  let d1 := readEcc.b1 ^^^ testEcc.b1
  let d2 := readEcc.b2 ^^^ testEcc.b2
  if d0 ||| d1 ||| d2 = 0#8 then ⟨0, data, readEcc⟩
  else if (d0 ^^^ d0 >>> 1) &&& 0x55 = 0x55 ∧ (d1 ^^^ d1 >>> 1) &&& 0x55 = 0x55 ∧
      (d2 ^^^ d2 >>> 1) &&& 0x54 = 0x54 then
    let byte :=
      pick d1 0x80 0x80 ||| pick d1 0x20 0x40 ||| pick d1 0x08 0x20 ||| pick d1 0x02 0x10 |||
      pick d0 0x80 0x08 ||| pick d0 0x20 0x04 ||| pick d0 0x08 0x02 ||| pick d0 0x02 0x01
    let bit := pick d2 0x80 0x04 ||| pick d2 0x20 0x02 ||| pick d2 0x08 0x01
    ⟨1, flipBit data byte.toNat bit.toNat, readEcc⟩
  else if hweight8 d0 + hweight8 d1 + hweight8 d2 = 1 then ⟨1, data, testEcc⟩
  else ⟨-1, data, readEcc⟩

/-! ## The code of any number of bytes -/

/-- `struct yaffs_ecc_other`. -/
structure EccOther where
  colParity : BitVec 8
  lineParity : BitVec 32
  lineParityPrime : BitVec 32

/-- `yaffs_ecc_calc_other`. -/
def eccCalcOther (data : Data) (nBytes : ℕ) : EccOther :=
  let s := parities 32 columnParity data nBytes
  ⟨s.col >>> 2 &&& 0x3f#8, s.line, s.prime⟩

/-- `yaffs_ecc_correct_other`. -/
def eccCorrectOther (data : Data) (nBytes : ℕ) (readEcc testEcc : EccOther) : Corrected EccOther :=
  let deltaCol := readEcc.colParity ^^^ testEcc.colParity
  let deltaLine := readEcc.lineParity ^^^ testEcc.lineParity
  let deltaLinePrime := readEcc.lineParityPrime ^^^ testEcc.lineParityPrime
  if deltaCol.setWidth 32 ||| deltaLine ||| deltaLinePrime = 0#32 then ⟨0, data, readEcc⟩
  else if deltaLine = ~~~deltaLinePrime ∧ (deltaCol ^^^ deltaCol >>> 1) &&& 0x15 = 0x15 then
    let bit := pick deltaCol 0x20 0x04 ||| pick deltaCol 0x08 0x02 ||| pick deltaCol 0x02 0x01
    if deltaLine.toNat ≥ nBytes then ⟨-1, data, readEcc⟩
    else ⟨1, flipBit data deltaLine.toNat bit.toNat, readEcc⟩
  else if hweight32 deltaLine + hweight32 deltaLinePrime + hweight8 deltaCol = 1
    then ⟨1, data, testEcc⟩
  else ⟨-1, data, readEcc⟩

/-! ## Lines -/

namespace Ecc

/-- The lines: the upper and the lower bits of the number of a byte, and the bits of that of a
    bit. -/
abbrev Lines := Fin 4 ⊕ Fin 4 ⊕ Fin 3

/-- A place: the number of a byte, and of a bit. -/
abbrev Place := BitVec 8 × BitVec 3

/-- The lines a place is on. -/
def pos (p : Place) : Lines → Bool
  | .inl k => p.1.getLsbD (4 + k)
  | .inr (.inl k) => p.1.getLsbD k
  | .inr (.inr k) => p.2.getLsbD k

/-- The parities in three octets. -/
def pairs (d0 d1 d2 : BitVec 8) : Syndrome Lines
  | .inl k => (d1.getLsbD (2 * k + 1), d1.getLsbD (2 * k))
  | .inr (.inl k) => (d0.getLsbD (2 * k + 1), d0.getLsbD (2 * k))
  | .inr (.inr k) => (d2.getLsbD (2 * k + 3), d2.getLsbD (2 * k + 2))

/-- A parity of the code is flipped. -/
def flipCode (e : Ecc) : Lines → Bool → Ecc
  | .inl k, b => { e with b1 := e.b1 ^^^ 1#8 <<< (2 * k.val + b.toNat) }
  | .inr (.inl k), b => { e with b0 := e.b0 ^^^ 1#8 <<< (2 * k.val + b.toNat) }
  | .inr (.inr k), b => { e with b2 := e.b2 ^^^ 1#8 <<< (2 * k.val + 2 + b.toNat) }

/-- In which parities two codes differ. -/
def diff (e e' : Ecc) : Syndrome Lines := pairs (e.b0 ^^^ e'.b0) (e.b1 ^^^ e'.b1) (e.b2 ^^^ e'.b2)

end Ecc

open Syndrome Ecc

variable {w n i j : ℕ} {data : Data} {e e' : Ecc} {d d0 d1 d2 : BitVec 8}

/-- Two places of the data differ in a line. -/
theorem pos_injective : Function.Injective pos := by
  intro p q h
  refine Prod.ext (BitVec.eq_of_getLsbD_eq fun k hk => ?_) (BitVec.eq_of_getLsbD_eq fun k hk => ?_)
  · by_cases h4 : k < 4
    · exact congrFun h (.inr (.inl ⟨k, h4⟩))
    · have := congrFun h (.inl ⟨k - 4, by omega⟩)
      simp only [pos] at this
      rwa [Nat.add_sub_cancel' (Nat.le_of_not_lt h4)] at this
  · exact congrFun h (.inr (.inr ⟨k, hk⟩))

theorem card_lines : Fintype.card Lines = 11 := rfl

/-! ## What a flipped bit changes -/

theorem flipBit_self : flipBit data i j i = data i ^^^ 1#8 <<< j := Function.update_self ..

/-- The other bytes are left alone. -/
theorem flipBit_of_ne {k : ℕ} (h : k ≠ i) : flipBit data i j k = data k :=
  Function.update_of_ne h ..

/-- A bit flipped twice is as it was. -/
theorem flipBit_flipBit : flipBit (flipBit data i j) i j = data := by
  funext k
  by_cases h : k = i
  · rw [h, flipBit_self, flipBit_self, BitVec.xor_assoc, BitVec.xor_self, BitVec.xor_zero]
  · rw [flipBit_of_ne h, flipBit_of_ne h]

/-- `entry` is odd where one bit more is set, and has the column `col j` changed for bit `j`. -/
def Additive (entry : BitVec 8 → BitVec 8 × Bool) (col : ℕ → BitVec 8) : Prop :=
  ∀ x, ∀ j < 8, entry (x ^^^ 1#8 <<< j) = ((entry x).1 ^^^ col j, !(entry x).2)

variable {entry : BitVec 8 → BitVec 8 × Bool} {col : ℕ → BitVec 8}

/-- Parities are of the bytes they are taken of. -/
theorem parities_congr {data' : Data} (h : ∀ i < n, data' i = data i) :
    parities w entry data' n = parities w entry data n := by
  induction n with
  | zero => rfl
  | succ n ih =>
      rw [parities, parities, ih fun i hi => h i (Nat.lt_succ_of_lt hi), h n (Nat.lt_succ_self n)]

/-- The byte is on its lines, and off the others. -/
theorem parities_flipBit (hentry : Additive entry col) (hi : i < n) (hj : j < 8) :
    parities w entry (flipBit data i j) n =
      (parities w entry data n).add ⟨col j, BitVec.ofNat w i, ~~~BitVec.ofNat w i⟩ := by
  induction n with
  | zero => exact absurd hi (Nat.not_lt_zero i)
  | succ n ih =>
    rw [parities, parities]
    rcases Nat.lt_succ_iff_lt_or_eq.1 hi with hlt | rfl
    · rw [ih hlt, flipBit_of_ne (Nat.ne_of_gt hlt)]
      dsimp only [Parities.add]
      split_ifs <;>
        simp only [BitVec.xor_assoc, BitVec.xor_comm (BitVec.ofNat w i),
        BitVec.xor_comm (~~~BitVec.ofNat w i), BitVec.xor_comm (col j)]
    · rw [parities_congr fun k hk => flipBit_of_ne (Nat.ne_of_lt hk), flipBit_self, hentry _ j hj]
      dsimp only [Parities.add]
      cases (entry (data i)).2
      · simp [BitVec.xor_assoc]
      · simp [BitVec.xor_assoc]

/-! ## The tables -/

/-- One bit is set. -/
theorem getLsbD_one_shiftLeft {w j : ℕ} (hj : j < w) (k : ℕ) :
    (1#w <<< j).getLsbD k = decide (k = j) := by
  rw [← BitVec.twoPow_eq, BitVec.getLsbD_twoPow, decide_eq_true hj, Bool.true_and]
  exact decide_eq_decide.2 eq_comm

/-- A table of the values of `f`. -/
theorem getD_table {α : Type*} {table : List α} {a : α} (f : BitVec 8 → α)
    (h : table = (List.range 256).map fun n => f (BitVec.ofNat 8 n)) (x : BitVec 8) :
    table.getD x.toNat a = f x := by
  subst h
  have hlt : x.toNat < 256 := x.isLt
  simp [List.getD, List.getElem?_range hlt]

/-- What bit `j` adds to the parities of the columns. -/
def column (j : ℕ) : BitVec 8 := [0x55, 0x59, 0x65, 0x69, 0x95, 0x99, 0xa5, 0xa9].getD j 0

/-- The parities of the columns of the lowest `j` bits. -/
def columnSum (x : BitVec 8) : ℕ → BitVec 8
  | 0 => 0
  | j + 1 => if x.getLsbD j then columnSum x j ^^^ column j else columnSum x j

/-- The sum of columns is of the bits it is taken of. -/
theorem columnSum_congr {x y : BitVec 8} (h : ∀ k < n, y.getLsbD k = x.getLsbD k) :
    columnSum y n = columnSum x n := by
  induction n with
  | zero => rfl
  | succ n ih =>
      rw [columnSum, columnSum, ih fun k hk => h k (Nat.lt_succ_of_lt hk), h n (Nat.lt_succ_self n)]

/-- A flipped bit adds its column. -/
theorem columnSum_flip (x : BitVec 8) (hj : j < 8) (hn : j < n) :
    columnSum (x ^^^ 1#8 <<< j) n = columnSum x n ^^^ column j := by
  have hflip : ∀ k, (x ^^^ 1#8 <<< j).getLsbD k = (x.getLsbD k ^^ decide (k = j)) := fun k => by
    rw [BitVec.getLsbD_xor, getLsbD_one_shiftLeft hj]
  induction n with
  | zero => exact absurd hn (Nat.not_lt_zero j)
  | succ n ih =>
    rw [columnSum, columnSum, hflip]
    rcases Nat.lt_succ_iff_lt_or_eq.1 hn with hlt | rfl
    · rw [ih hlt, decide_eq_false (Nat.ne_of_gt hlt), Bool.xor_false]
      split_ifs
      · rw [BitVec.xor_assoc, BitVec.xor_comm (column j), ← BitVec.xor_assoc]
      · rfl
    · have hsame : columnSum (x ^^^ 1#8 <<< j) j = columnSum x j := columnSum_congr fun k hk => by
        rw [hflip, decide_eq_false (Nat.ne_of_lt hk), Bool.xor_false]
      rw [hsame, decide_eq_true rfl]
      cases x.getLsbD j
      · rfl
      · change columnSum x j = columnSum x j ^^^ column j ^^^ column j
        rw [BitVec.xor_assoc, BitVec.xor_self, BitVec.xor_zero]

/-- A bit is tested. -/
theorem and_one_shiftLeft_ne_zero (x : BitVec 8) {j : ℕ} (hj : j < 8) : (x &&& 1#8 <<< j ≠ 0) ↔
    x.getLsbD j = true := by
  rw [← BitVec.twoPow_eq, BitVec.and_twoPow]
  cases x.getLsbD j
  · simp
  · refine iff_of_true (fun h => ?_) rfl
    have hbit := congrArg (BitVec.getLsbD · j) h
    simp [hj] at hbit

/-- The table has the sum of the columns of the bits, and their parity. -/
theorem columnParity_eq (x : BitVec 8) :
    columnParity x = (columnSum x 8, (columnSum x 8).getLsbD 0) := by
  have htable : columnParityTable = (List.range 256).map fun n =>
      columnSum (BitVec.ofNat 8 n) 8 := by decide +kernel
  rw [columnParity, getD_table (columnSum · 8) htable]
  exact congrArg (Prod.mk _)
    (Bool.eq_iff_iff.2
    (decide_eq_true_iff.trans (and_one_shiftLeft_ne_zero _ (show 0 < 8 by decide))))

/-- The table is linear. -/
theorem additive_columnParity : Additive columnParity fun j => (columnParity (1#8 <<< j)).1 := by
  intro x j hj
  have hodd : ∀ j < 8, (column j).getLsbD 0 = true := by decide
  have hcolumn : columnSum (1#8 <<< j) 8 = column j := by
    have hflip := columnSum_flip 0#8 hj hj
    rwa [BitVec.zero_xor, show columnSum 0#8 8 = 0#8 from rfl, BitVec.zero_xor] at hflip
  dsimp only
  rw [columnParity_eq, columnParity_eq, columnParity_eq, columnSum_flip x hj hj, hcolumn]
  refine congrArg (Prod.mk _) ?_
  rw [BitVec.getLsbD_xor, hodd j hj, Bool.xor_true]

/-- The number of ones of a byte. -/
theorem hweight8_eq (x : BitVec 8) : hweight8 x = ∑ k ∈ Finset.range 8, (x.getLsbD k).toNat := by
  have htable : countBitsTable = (List.range 256).map fun n =>
      ∑ k ∈ Finset.range 8, ((BitVec.ofNat 8 n).getLsbD k).toNat := by decide +kernel
  exact getD_table (fun x => ∑ k ∈ Finset.range 8, (x.getLsbD k).toNat) htable x

/-! ## The bits of the code -/

/-- A bit of one byte is moved to a bit of another. -/
theorem getLsbD_pick (x : BitVec 8) (a : Fin 8) (bit : BitVec 8) (k : ℕ) :
    (pick x (1#8 <<< a.val) bit).getLsbD k = (x.getLsbD a && bit.getLsbD k) := by
  have h := and_one_shiftLeft_ne_zero x a.isLt
  rw [pick]
  by_cases hx : x.getLsbD a.val = true
  · rw [if_pos (h.2 hx), hx, Bool.true_and]
  · rw [if_neg (mt h.1 hx), Bool.eq_false_iff.2 hx, Bool.false_and]
    exact BitVec.getLsbD_zero

/-- The lines from `h` on. -/
theorem getLsbD_packLines (line prime : BitVec 8) {h : ℕ} (hh : h + 3 < 8) (k : Fin 4) :
    (packLines line prime (1#8 <<< (h + 3)) (1#8 <<< (h + 2)) (1#8 <<< (h + 1)) (1#8 <<< h)).getLsbD
    (2 * k + 1) =
        line.getLsbD (h + k) ∧
      (packLines line prime (1#8 <<< (h + 3)) (1#8 <<< (h + 2)) (1#8 <<< (h + 1))
      (1#8 <<< h)).getLsbD (2 * k) =
        prime.getLsbD (h + k) := by
  have h₃ := fun x : BitVec 8 => getLsbD_pick x ⟨h + 3, hh⟩
  have h₂ := fun x : BitVec 8 => getLsbD_pick x ⟨h + 2, by omega⟩
  have h₁ := fun x : BitVec 8 => getLsbD_pick x ⟨h + 1, by omega⟩
  have h₀ := fun x : BitVec 8 => getLsbD_pick x ⟨h, by omega⟩
  dsimp only at h₃ h₂ h₁ h₀
  simp only [packLines, BitVec.getLsbD_or, h₃, h₂, h₁, h₀]
  fin_cases k <;> simp

/-- The lines in the parities. -/
def Parities.lines (s : Parities 8) : Syndrome Lines
  | .inl k => (s.line.getLsbD (4 + k), s.prime.getLsbD (4 + k))
  | .inr (.inl k) => (s.line.getLsbD k, s.prime.getLsbD k)
  | .inr (.inr k) => (s.col.getLsbD (2 * k + 3), s.col.getLsbD (2 * k + 2))

/-- The codes of two blocks differ in their parities. -/
theorem diff_ecc (s t : Parities 8) : diff s.ecc t.ecc = add s.lines t.lines := by
  have hb1 := fun s : Parities 8 => getLsbD_packLines s.line s.prime (h := 4) (by decide)
  have hb0 := fun s : Parities 8 => getLsbD_packLines s.line s.prime (h := 0) (by decide)
  have hnot : ∀ a b : BitVec 8, ~~~a ^^^ ~~~b = a ^^^ b := fun a b =>
    BitVec.eq_of_getLsbD_eq fun i hi => by simp [hi]
  funext k
  rcases k with k | k | k
  · simp only [diff, pairs, Parities.ecc, hnot, BitVec.getLsbD_xor]
    exact Prod.ext (congrArg₂ xor (hb1 s k).1 (hb1 t k).1) (congrArg₂ xor (hb1 s k).2 (hb1 t k).2)
  · simp only [diff, pairs, Parities.ecc, hnot, BitVec.getLsbD_xor]
    refine Prod.ext (congrArg₂ xor ?_ ?_) (congrArg₂ xor ?_ ?_)
    · simpa [Parities.lines] using (hb0 s k).1
    · simpa [Parities.lines] using (hb0 t k).1
    · simpa [Parities.lines] using (hb0 s k).2
    · simpa [Parities.lines] using (hb0 t k).2
  · have hcol :
        ∀ a : BitVec 8, ∀ k : Fin 3, (~~~a ||| 0x03).getLsbD (2 * k + 3) = !a.getLsbD (2 * k + 3) ∧
        (~~~a ||| 0x03).getLsbD (2 * k + 2) = !a.getLsbD (2 * k + 2) := by decide +kernel
    simp only [diff, pairs, Parities.ecc, BitVec.getLsbD_xor, (hcol _ k).1, (hcol _ k).2,
      Bool.not_xor_not]
    rfl

/-! ## The verdict of a correcting function -/

/-- The codes are the same. -/
theorem pairs_eq_clean (h : d2 &&& 0x03 = 0) : d0 ||| d1 ||| d2 = 0#8 ↔ pairs d0 d1 d2 = clean := by
  have h4 : ∀ d : BitVec 8, d = 0#8 ↔
      ∀ k : Fin 4, (d.getLsbD (2 * k + 1), d.getLsbD (2 * k)) = (false, false) := by
    decide +kernel
  have h3 : ∀ d : BitVec 8, d &&& 0x03 = 0 →
      (d = 0#8 ↔ ∀ k : Fin 3, (d.getLsbD (2 * k + 3), d.getLsbD (2 * k + 2)) = (false, false)) := by
        decide +kernel
  rw [BitVec.or_eq_zero_iff, BitVec.or_eq_zero_iff, h4 d0, h4 d1, h3 d2 h, funext_iff,
    Sum.forall, Sum.forall]
  constructor
  · rintro ⟨⟨h0, h1⟩, h2⟩
    exact ⟨h1, h0, h2⟩
  · rintro ⟨h1, h0, h2⟩
    exact ⟨⟨h0, h1⟩, h2⟩

/-- All pairs of parities differ in one bit. -/
theorem valid_pairs : (d0 ^^^ d0 >>> 1) &&& 0x55 = 0x55 ∧ (d1 ^^^ d1 >>> 1) &&& 0x55 = 0x55 ∧
    (d2 ^^^ d2 >>> 1) &&& 0x54 = 0x54 ↔ Valid (pairs d0 d1 d2) := by
  have h4 : ∀ d : BitVec 8, (d ^^^ d >>> 1) &&& 0x55 = 0x55 ↔
      ∀ k : Fin 4, d.getLsbD (2 * k + 1) ≠ d.getLsbD (2 * k) := by
    decide +kernel
  have h3 : ∀ d : BitVec 8, (d ^^^ d >>> 1) &&& 0x54 = 0x54 ↔
      ∀ k : Fin 3, d.getLsbD (2 * k + 3) ≠ d.getLsbD (2 * k + 2) := by decide +kernel
  rw [h4 d0, h4 d1, h3 d2, Valid, Sum.forall, Sum.forall]
  constructor
  · rintro ⟨h0, h1, h2⟩
    exact ⟨h1, h0, h2⟩
  · rintro ⟨h1, h0, h2⟩
    exact ⟨h0, h1, h2⟩

/-- The bits counted are those of the pairs. -/
theorem weight_pairs (h : d2 &&& 0x03 = 0) :
    hweight8 d0 + hweight8 d1 + hweight8 d2 = weight (pairs d0 d1 d2) := by
  have hlow : d2[0] = false ∧ d2[1] = false := by
    have h₀ := congrArg (BitVec.getLsbD · 0) h
    have h₁ := congrArg (BitVec.getLsbD · 1) h
    simpa using And.intro h₀ h₁
  rw [weight, Fintype.sum_sum_type, Fintype.sum_sum_type, hweight8_eq, hweight8_eq, hweight8_eq]
  simp [pairs, Finset.sum_range_succ, Fin.sum_univ_succ, hlow]
  omega

/-- What a correcting function does upon a verdict. -/
def Ecc.Answers (data : Data) (readEcc testEcc : Ecc) (r : Corrected Ecc) : Verdict Lines → Prop
  | .clean => r = ⟨0, data, readEcc⟩
  | .data p => ∀ q, p = pos q → r = ⟨1, flipBit data q.1.toNat q.2.toNat, readEcc⟩
  | .code => r = ⟨1, data, testEcc⟩
  | .bad => r = ⟨-1, data, readEcc⟩

/-- The byte and the bit that are corrected are those the syndrome is the label of. -/
theorem place_eq {q : Place} (h : (fun k => (pairs d0 d1 d2 k).1) = pos q) :
    (pick d1 0x80 0x80 ||| pick d1 0x20 0x40 ||| pick d1 0x08 0x20 ||| pick d1 0x02 0x10 |||
        pick d0 0x80 0x08 ||| pick d0 0x20 0x04 ||| pick d0 0x08 0x02 ||| pick d0 0x02 0x01) = q.1 ∧
      (pick d2 0x80 0x04 ||| pick d2 0x20 0x02 ||| pick d2 0x08 0x01).toNat = q.2.toNat := by
  have h₇ := fun x : BitVec 8 => getLsbD_pick x 7
  have h₅ := fun x : BitVec 8 => getLsbD_pick x 5
  have h₃ := fun x : BitVec 8 => getLsbD_pick x 3
  have h₁ := fun x : BitVec 8 => getLsbD_pick x 1
  change ∀ x : BitVec 8, ∀ bit k, (pick x 0x80 bit).getLsbD k = _ at h₇
  change ∀ x : BitVec 8, ∀ bit k, (pick x 0x20 bit).getLsbD k = _ at h₅
  change ∀ x : BitVec 8, ∀ bit k, (pick x 0x08 bit).getLsbD k = _ at h₃
  change ∀ x : BitVec 8, ∀ bit k, (pick x 0x02 bit).getLsbD k = _ at h₁
  -- One bit of each pair gives a bit of the place.
  have hd1 : ∀ k : Fin 4, d1.getLsbD (2 * k + 1) = q.1.getLsbD (4 + k) :=
    fun k => congrFun h (.inl k)
  have hd0 : ∀ k : Fin 4, d0.getLsbD (2 * k + 1) = q.1.getLsbD k :=
    fun k => congrFun h (.inr (.inl k))
  have hd2 : ∀ k : Fin 3, d2.getLsbD (2 * k + 3) = q.2.getLsbD k :=
    fun k => congrFun h (.inr (.inr k))
  constructor
  · have hall : ∀ k : Fin 8,
        (pick d1 0x80 0x80 ||| pick d1 0x20 0x40 ||| pick d1 0x08 0x20 ||| pick d1 0x02 0x10 |||
        pick d0 0x80 0x08 ||| pick d0 0x20 0x04 ||| pick d0 0x08 0x02 |||
          pick d0 0x02 0x01).getLsbD k =
          q.1.getLsbD k := by
      have := hd1 0; have := hd1 1; have := hd1 2; have := hd1 3
      have := hd0 0; have := hd0 1; have := hd0 2; have := hd0 3
      intro k
      simp only [BitVec.getLsbD_or, h₇, h₅, h₃, h₁]
      fin_cases k <;> simp_all
    exact BitVec.eq_of_getLsbD_eq fun k hk => hall ⟨k, hk⟩
  · have hall :
        ∀ k : Fin 8, (pick d2 0x80 0x04 ||| pick d2 0x20 0x02 ||| pick d2 0x08 0x01).getLsbD k =
        (q.2.setWidth 8).getLsbD k := by
      have := hd2 0; have := hd2 1; have := hd2 2
      intro k
      simp only [BitVec.getLsbD_or, h₇, h₅, h₃]
      fin_cases k <;> simp_all
    rw [BitVec.eq_of_getLsbD_eq fun k hk => hall ⟨k, hk⟩, BitVec.toNat_setWidth_of_le (by decide)]

/-- What is answered for a stored code and the one calculated is what the syndrome tells. -/
theorem eccCorrect_answers {readEcc testEcc : Ecc} (h : (readEcc.b2 ^^^ testEcc.b2) &&& 0x03 = 0) :
    Answers data readEcc testEcc (eccCorrect data readEcc testEcc)
      (verdict (diff readEcc testEcc)) := by
  rw [eccCorrect, diff, verdict]
  dsimp only
  generalize readEcc.b0 ^^^ testEcc.b0 = d0, readEcc.b1 ^^^ testEcc.b1 = d1,
    readEcc.b2 ^^^ testEcc.b2 = d2 at h ⊢
  simp only [pairs_eq_clean h, valid_pairs, weight_pairs h]
  generalize weight (pairs d0 d1 d2) = k
  by_cases hclean : pairs d0 d1 d2 = clean
  · rw [if_pos hclean, if_pos hclean]
    rfl
  · rw [if_neg hclean, if_neg hclean]
    by_cases hvalid : Valid (pairs d0 d1 d2)
    · rw [if_pos hvalid, if_pos hvalid]
      intro q hq
      obtain ⟨hbyte, hbit⟩ := place_eq hq
      rw [hbyte, hbit]
    · rw [if_neg hvalid, if_neg hvalid]
      by_cases hone : k = 1
      · rw [if_pos hone, if_pos hone]
        rfl
      · rw [if_neg hone, if_neg hone]
        rfl

/-! ## The bits that are no parities -/

/-- The two lowest bits of the last octet, which the code has no use for, are changed. -/
def Ecc.pad (e : Ecc) (p : BitVec 8) : Ecc := { e with b2 := e.b2 ^^^ p }

/-- What the padding may be changed to. -/
theorem ofNat_pad : ∀ p : BitVec 8, p &&& 0x03 = p → p ∈ [0x00#8, 0x01#8, 0x02#8, 0x03#8] := by
  decide +kernel

/-- They do not come into the test of the pairs, but they are counted. -/
theorem octet_pad (d : BitVec 8) {p : BitVec 8} (hp : p &&& 0x03 = p) (hd : d &&& 0x03 = 0) :
    ((d ^^^ p) ^^^ (d ^^^ p) >>> 1) &&& (0x54 : BitVec 8) = (d ^^^ d >>> 1) &&& (0x54 : BitVec 8) ∧
      hweight8 (d ^^^ p) = hweight8 d + hweight8 p ∧ (d ^^^ p = 0 → p = 0) ∧
      pick (d ^^^ p) 0x80 0x04 = pick d 0x80 0x04 ∧ pick (d ^^^ p) 0x20 0x02 = pick d 0x20 0x02 ∧
      pick (d ^^^ p) 0x08 0x01 = pick d 0x08 0x01 := by
  have h : ∀ p ∈ [0x00#8, 0x01#8, 0x02#8, 0x03#8], ∀ d : BitVec 8, d &&& 0x03 = 0 →
      ((d ^^^ p) ^^^ (d ^^^ p) >>> 1) &&& (0x54 : BitVec 8) =
        (d ^^^ d >>> 1) &&& (0x54 : BitVec 8) ∧
        hweight8 (d ^^^ p) = hweight8 d + hweight8 p ∧ (d ^^^ p = 0 → p = 0) ∧
        pick (d ^^^ p) 0x80 0x04 = pick d 0x80 0x04 ∧ pick (d ^^^ p) 0x20 0x02 = pick d 0x20 0x02 ∧
        pick (d ^^^ p) 0x08 0x01 = pick d 0x08 0x01 := by decide +kernel
  exact h p (ofNat_pad p hp) d hd

theorem eccCorrect_pad (data : Data) {readEcc testEcc : Ecc} {p : BitVec 8} (hp : p &&& 0x03 = p)
    (hne : p ≠ 0) (h : (readEcc.b2 ^^^ testEcc.b2) &&& 0x03 = 0) :
    (∀ q, diff readEcc testEcc = label (pos q) → eccCorrect data (readEcc.pad p) testEcc =
        ⟨1, flipBit data q.1.toNat q.2.toNat, readEcc.pad p⟩) ∧
      (¬Valid (diff readEcc testEcc) → eccCorrect data (readEcc.pad p) testEcc =
        if weight (diff readEcc testEcc) + hweight8 p = 1 then ⟨1, data, testEcc⟩
        else ⟨-1, data, readEcc.pad p⟩) := by
  have hb2 : (readEcc.pad p).b2 ^^^ testEcc.b2 = (readEcc.b2 ^^^ testEcc.b2) ^^^ p := by
    rw [pad, BitVec.xor_assoc, BitVec.xor_comm p, ← BitVec.xor_assoc]
  rw [eccCorrect, hb2, diff]
  change _ ∧ (_ → _)
  simp only [show (readEcc.pad p).b0 = readEcc.b0 from rfl,
    show (readEcc.pad p).b1 = readEcc.b1 from rfl]
  generalize readEcc.b0 ^^^ testEcc.b0 = d0, readEcc.b1 ^^^ testEcc.b1 = d1,
    readEcc.b2 ^^^ testEcc.b2 = d2 at h ⊢
  obtain ⟨hvalid, hweight, hzero, h₇, h₅, h₃⟩ := octet_pad d2 hp h
  have hsome : ¬d0 ||| d1 ||| (d2 ^^^ p) = 0#8 := fun h => hne (hzero (BitVec.or_eq_zero_iff.1 h).2)
  rw [if_neg hsome, hvalid, hweight, h₇, h₅, h₃, ← Nat.add_assoc, weight_pairs h]
  constructor
  · intro q hq
    obtain ⟨hbyte, hbit⟩ := place_eq (q := q) (by rw [hq]; rfl)
    rw [if_pos (valid_pairs.2 (hq ▸ valid_label)), hbyte, hbit]
  · exact fun hno => if_neg (mt valid_pairs.1 hno)

/-! ## Stored data -/

/-- Data, and the code kept for it. -/
structure Ecc.Stored where
  data : Data
  ecc : Ecc

namespace Ecc.Stored

/-- Storing data. -/
def store (data : Data) : Stored := ⟨data, eccCalc data⟩

/-- A bit of what is stored is flipped. -/
def fault (s : Stored) : Fault Place Lines → Stored
  | .data q => { s with data := flipBit s.data q.1.toNat q.2.toNat }
  | .code k b => { s with ecc := s.ecc.flipCode k b }

/-- Reading it back: the code is calculated again, and the data corrected. -/
def correct (s : Stored) : Corrected Ecc := eccCorrect s.data s.ecc (eccCalc s.data)

/-- In which parities the code kept differs from that of the data. -/
def syndrome (s : Stored) : Syndrome Lines := diff s.ecc (eccCalc s.data)

/-- The two bits the code has no use for are set. -/
def Padded (s : Stored) : Prop := s.ecc.b2 &&& 0x03 = 0x03

variable {s : Stored}

/-- A new code has its padding. -/
theorem padded_store (data : Data) : (store data).Padded := by
  have h : ∀ c : BitVec 8, (~~~c ||| 0x03) &&& 0x03 = 0x03 := by decide +kernel
  exact h _

/-- Nothing has happened to a new code. -/
theorem syndrome_store (data : Data) : (store data).syndrome = clean := by
  funext k
  rcases k with k | k | k <;> simp [syndrome, store, diff, pairs, clean]

/-- Flipped parities leave the padding. -/
theorem Padded.fault (h : s.Padded) (f : Fault Place Lines) : (s.fault f).Padded := by
  rcases f with q | ⟨k | k | k, b⟩
  · exact h
  · exact h
  · exact h
  · have hflip : ∀ c : BitVec 8, ∀ k : Fin 3, ∀ b : Bool,
        (c ^^^ 1#8 <<< (2 * k.val + 2 + b.toNat)) &&& 0x03 = c &&& 0x03 := by decide +kernel
    exact (hflip _ k b).trans h

/-- With the padding intact, it does not show. -/
theorem Padded.diff (h : s.Padded) : (s.ecc.b2 ^^^ (eccCalc s.data).b2) &&& 0x03 = 0 := by
  have hxor : ∀ c c' : BitVec 8, c &&& 0x03 = 0x03 → c' &&& 0x03 = 0x03 → (c ^^^ c') &&& 0x03 = 0 :=
    fun c c' hc hc' => by
    have : (c ^^^ c') &&& 0x03 = (c &&& 0x03) ^^^ (c' &&& 0x03) := by
      refine BitVec.eq_of_getLsbD_eq fun i hi => ?_
      simp only [BitVec.getLsbD_and, BitVec.getLsbD_xor]
      cases c.getLsbD i <;> cases c'.getLsbD i <;> cases (3 : BitVec 8).getLsbD i <;> rfl
    rw [this, hc, hc']
    rfl
  exact hxor _ _ h (padded_store _)

/-- The label of a place, in the parities of its byte. -/
theorem lines_place (q : Place) :
    Parities.lines ⟨(columnParity (1#8 <<< q.2.toNat)).1, BitVec.ofNat 8 q.1.toNat,
      ~~~BitVec.ofNat 8 q.1.toNat⟩ = label (pos q) := by
  obtain ⟨byte, bit⟩ := q
  have hcol : ∀ bit : BitVec 3, ∀ k : Fin 3,
      (columnParity (1#8 <<< bit.toNat)).1.getLsbD (2 * k + 3) = bit.getLsbD k ∧
      (columnParity (1#8 <<< bit.toNat)).1.getLsbD (2 * k + 2) = !bit.getLsbD k := by decide +kernel
  funext k
  rw [BitVec.ofNat_toNat, BitVec.setWidth_eq]
  rcases k with k | k | k
  · have : 4 + k.val < 8 := by omega
    simp [Parities.lines, label, pos, this]
  · have : k.val < 8 := by omega
    simp [Parities.lines, label, pos, this]
  · exact Prod.ext (hcol bit k).1 (hcol bit k).2

/-- A flipped parity is marked. -/
theorem diff_flipCode {e e' : Ecc} (k : Lines) (b : Bool) :
    diff (e.flipCode k b) e' = add (diff e e') (mark k b) := by
  have h4 : ∀ k l : Fin 4, ∀ b, ((1#8 <<< (2 * k.val + b.toNat)).getLsbD (2 * l + 1),
      (1#8 <<< (2 * k.val + b.toNat)).getLsbD (2 * l)) = mark k b l := by decide +kernel
  have h3 : ∀ k l : Fin 3, ∀ b, ((1#8 <<< (2 * k.val + 2 + b.toNat)).getLsbD (2 * l + 3),
      (1#8 <<< (2 * k.val + 2 + b.toNat)).getLsbD (2 * l + 2)) = mark k b l := by decide +kernel
  have hxor : ∀ (c u c' : BitVec 8) (i : ℕ),
      (c ^^^ u ^^^ c').getLsbD i = ((c ^^^ c').getLsbD i ^^ u.getLsbD i) :=
    fun c u c' i => by
      simp only [BitVec.getLsbD_xor]
      cases c.getLsbD i <;> cases u.getLsbD i <;> cases c'.getLsbD i <;> rfl
  funext l
  rcases k with k | k | k <;> rcases l with l | l | l
  · rw [add, mark_inl, ← h4 k l b]
    exact Prod.ext (hxor ..) (hxor ..)
  · simp [diff, flipCode, pairs, add, mark]
  · simp [diff, flipCode, pairs, add, mark]
  · simp [diff, flipCode, pairs, add, mark]
  · rw [add, mark_inr, mark_inl, ← h4 k l b]
    exact Prod.ext (hxor ..) (hxor ..)
  · simp [diff, flipCode, pairs, add, mark]
  · simp [diff, flipCode, pairs, add, mark]
  · simp [diff, flipCode, pairs, add, mark]
  · rw [add, mark_inr, mark_inr, ← h3 k l b]
    exact Prod.ext (hxor ..) (hxor ..)

/-- A fault adds its syndrome. -/
theorem syndrome_fault (f : Fault Place Lines) :
    (s.fault f).syndrome = add s.syndrome (f.syndrome pos) := by
  rcases f with q | ⟨k, b⟩
  · have hadd : ∀ (e e' e'' : Ecc), diff e e'' = add (diff e e') (diff e' e'') := fun e e' e'' => by
      funext k
      rcases k with k | k | k <;> refine Prod.ext ?_ ?_ <;> simp [diff, pairs]
    have hlines : diff (eccCalc s.data) (eccCalc (s.fault (.data q)).data) = label (pos q) := by
      rw [eccCalc, eccCalc, diff_ecc, fault]
      dsimp only
      rw [parities_flipBit additive_columnParity q.1.isLt q.2.isLt, ← lines_place q]
      funext k
      rcases k with k | k | k <;> refine Prod.ext ?_ ?_ <;> simp [Parities.lines, Parities.add]
    rw [syndrome, hadd _ (eccCalc s.data), hlines]
    rfl
  · exact diff_flipCode k b

/-- What a correcting function is given, once faults have happened. -/
theorem answers (h : s.Padded) :
    Answers s.data s.ecc (eccCalc s.data) s.correct (verdict s.syndrome) :=
  eccCorrect_answers h.diff

/-- A block that is intact is left alone. -/
theorem correct_store (data : Data) : (store data).correct = ⟨0, data, eccCalc data⟩ := by
  have := answers (padded_store data)
  rwa [syndrome_store, verdict_clean] at this

/-- One wrong bit is corrected, wherever it is. -/
theorem correct_fault (f : Fault Place Lines) :
    ((store data).fault f).correct = ⟨1, data, eccCalc data⟩ := by
  have := answers ((padded_store data).fault f)
  rw [syndrome_fault, syndrome_store, clean_add, verdict_fault (by decide)] at this
  rcases f with q | ⟨k, b⟩
  · rw [this q rfl, fault]
    dsimp only
    rw [store, flipBit_flipBit]
  · exact this

/-- Two wrong bits are found out, and nothing is changed. -/
theorem correct_faults {f f' : Fault Place Lines} (h : f ≠ f') :
    (((store data).fault f).fault f').correct =
      ⟨-1, (((store data).fault f).fault f').data, (((store data).fault f).fault f').ecc⟩ := by
  have := answers (((padded_store data).fault f).fault f')
  rwa [syndrome_fault, syndrome_fault, syndrome_store, clean_add,
    verdict_faults (by decide) pos_injective h] at this

/-- Bits of the code that are no parities are flipped. -/
def pad (s : Stored) (p : BitVec 8) : Stored := { s with ecc := s.ecc.pad p }

/-- One or two of these are flipped, and nothing else: the code is calculated again for one. -/
theorem correct_pad {p : BitVec 8} (hp : p &&& 0x03 = p) (hne : p ≠ 0) :
    ((store data).pad p).correct =
      if hweight8 p = 1 then ⟨1, data, eccCalc data⟩ else ⟨-1, data, ((store data).pad p).ecc⟩ := by
  have hclean : diff (store data).ecc (eccCalc data) = clean := syndrome_store data
  have hno : ¬Valid (clean : Syndrome Lines) := fun h => h (.inl 0) rfl
  have hcorrect := (eccCorrect_pad data hp hne (padded_store data).diff).2 (hclean ▸ hno)
  rwa [show (store data).data = data from rfl, hclean, weight_clean, Nat.zero_add] at hcorrect

/-- With a wrong bit of the data they are not seen, and with a wrong parity they are one wrong bit
    too many. -/
theorem correct_fault_pad {p : BitVec 8} (hp : p &&& 0x03 = p) (hne : p ≠ 0) :
    (∀ q, (((store data).fault (.data q)).pad p).correct = ⟨1, data, ((store data).pad p).ecc⟩) ∧
      ∀ k b, (((store data).fault (.code k b)).pad p).correct =
        ⟨-1, data, (((store data).fault (.code k b)).pad p).ecc⟩ := by
  have hdiff (f : Fault Place Lines) : ((store data).fault f).syndrome = f.syndrome pos := by
    rw [syndrome_fault, syndrome_store, clean_add]
  constructor
  · intro q
    have hpadded := (padded_store data).fault (.data q)
    have hcorrect := (eccCorrect_pad ((store data).fault (.data q)).data hp hne hpadded.diff).1 q
      (hdiff (.data q))
    rwa [show ((store data).fault (.data q)).data = flipBit data q.1.toNat q.2.toNat from rfl,
      flipBit_flipBit] at hcorrect
  · intro k b
    have hpadded := (padded_store data).fault (.code k b)
    have hmark : diff ((store data).fault (.code k b)).ecc (eccCalc data) = mark k b :=
      hdiff (.code k b)
    have hno : ¬Valid (mark k b : Syndrome Lines) := fun h => by
      have hone := weight_valid h
      rw [weight_mark, card_lines] at hone
      exact absurd hone (by decide)
    have hcorrect := (eccCorrect_pad data hp hne hpadded.diff).2 (hmark ▸ hno)
    have hpos : hweight8 p ≠ 0 := by
      have h : ∀ p ∈ [0x00#8, 0x01#8, 0x02#8, 0x03#8], p ≠ 0 → hweight8 p ≠ 0 := by decide
      exact h p (ofNat_pad p hp) hne
    rwa [show ((store data).fault (.code k b)).data = data from rfl, hmark, weight_mark,
      if_neg (by omega)] at hcorrect

/-- What is stored comes back, also with a bit of it wrong; that two are wrong is found out. Of the
    two bits of the code that are no parities, one is taken for a wrong parity, and either is not
    seen beside a wrong bit of the data. -/
theorem eccCorrect_corrects (data : Data) : (store data).correct = ⟨0, data, eccCalc data⟩ ∧
    (∀ f, ((store data).fault f).correct = ⟨1, data, eccCalc data⟩) ∧
      (∀ f f', f ≠ f' → (((store data).fault f).fault f').correct =
        ⟨-1, (((store data).fault f).fault f').data, (((store data).fault f).fault f').ecc⟩) ∧
      ∀ p : BitVec 8, p &&& 0x03 = p → p ≠ 0 →
        ((store data).pad p).correct = (if hweight8 p = 1 then ⟨1, data, eccCalc data⟩
          else ⟨-1, data, ((store data).pad p).ecc⟩) ∧
        (∀ q, (((store data).fault (.data q)).pad p).correct =
        ⟨1, data, ((store data).pad p).ecc⟩) ∧
        ∀ k b, (((store data).fault (.code k b)).pad p).correct =
          ⟨-1, data, (((store data).fault (.code k b)).pad p).ecc⟩ :=
  ⟨correct_store data, correct_fault, fun _ _ => correct_faults, fun _ hp hne =>
    ⟨correct_pad hp hne, correct_fault_pad hp hne⟩⟩

end Ecc.Stored

/-! ## Any number of bytes -/

namespace EccOther

/-- The bits of the number of a byte, and of that of a bit. -/
abbrev Lines := Fin 32 ⊕ Fin 3

/-- The number of a byte, and of a bit. -/
abbrev Place := BitVec 32 × BitVec 3

/-- The lines a place is on. -/
def pos (p : Place) : Lines → Bool
  | .inl k => p.1.getLsbD k
  | .inr k => p.2.getLsbD k

def pairs (col : BitVec 8) (line prime : BitVec 32) : Syndrome Lines
  | .inl k => (line.getLsbD k, prime.getLsbD k)
  | .inr k => (col.getLsbD (2 * k + 1), col.getLsbD (2 * k))

/-- A parity of the code is flipped. -/
def flipCode (e : EccOther) : Lines → Bool → EccOther
  | .inl k, true => { e with lineParity := e.lineParity ^^^ 1#32 <<< k.val }
  | .inl k, false => { e with lineParityPrime := e.lineParityPrime ^^^ 1#32 <<< k.val }
  | .inr k, b => { e with colParity := e.colParity ^^^ 1#8 <<< (2 * k.val + b.toNat) }

/-- In which parities two codes differ. -/
def diff (e e' : EccOther) : Syndrome Lines :=
  pairs (e.colParity ^^^ e'.colParity) (e.lineParity ^^^ e'.lineParity)
    (e.lineParityPrime ^^^ e'.lineParityPrime)

variable {c : BitVec 8} {l l' : BitVec 32}

theorem pos_injective : Function.Injective pos := by
  intro p q h
  refine Prod.ext (BitVec.eq_of_getLsbD_eq fun k hk => ?_) (BitVec.eq_of_getLsbD_eq fun k hk => ?_)
  · exact congrFun h (.inl ⟨k, hk⟩)
  · exact congrFun h (.inr ⟨k, hk⟩)

/-- A word is zero if its bits are. -/
theorem eq_zero_iff_bits {w : ℕ} {x : BitVec w} : x = 0#w ↔ ∀ k : Fin w, x.getLsbD k = false := by
  refine ⟨fun h k => by simp [h], fun h => BitVec.eq_of_getLsbD_eq fun k hk => ?_⟩
  rw [h ⟨k, hk⟩, BitVec.getLsbD_zero]

theorem pairs_eq_clean (h : c &&& 0xc0 = 0) : c.setWidth 32 ||| l ||| l' = 0#32 ↔
    pairs c l l' = clean := by
  have h3 : ∀ c : BitVec 8, c &&& 0xc0 = 0 →
      (c.setWidth 32 = 0#32 ↔
        ∀ k : Fin 3, (c.getLsbD (2 * k + 1), c.getLsbD (2 * k)) = (false, false)) := by
    decide +kernel
  rw [BitVec.or_eq_zero_iff, BitVec.or_eq_zero_iff, h3 c h, funext_iff, Sum.forall,
    eq_zero_iff_bits, eq_zero_iff_bits]
  constructor
  · rintro ⟨⟨hc, hl⟩, hl'⟩
    exact ⟨fun k => Prod.ext (hl k) (hl' k), hc⟩
  · rintro ⟨hl, hc⟩
    exact ⟨⟨hc, fun k => congrArg Prod.fst (hl k)⟩, fun k => congrArg Prod.snd (hl k)⟩

theorem valid_pairs : l = ~~~l' ∧ (c ^^^ c >>> 1) &&& 0x15 = 0x15 ↔ Valid (pairs c l l') := by
  have h3 : ∀ c : BitVec 8, (c ^^^ c >>> 1) &&& 0x15 = 0x15 ↔
      ∀ k : Fin 3, c.getLsbD (2 * k + 1) ≠ c.getLsbD (2 * k) := by
    decide +kernel
  rw [h3 c, Valid, Sum.forall]
  refine and_congr_left fun _ => ⟨fun h k => ?_, fun h => BitVec.eq_of_getLsbD_eq fun k hk => ?_⟩
  · simp [pairs, h]
  · have := h ⟨k, hk⟩
    simp only [pairs] at this
    rw [BitVec.getLsbD_not, decide_eq_true hk, Bool.true_and]
    cases h₁ : l.getLsbD k <;> cases h₂ : l'.getLsbD k <;> simp_all

/-- The number of ones of a word. -/
theorem hweight32_eq (x : BitVec 32) : hweight32 x = ∑ k : Fin 32, (x.getLsbD k).toNat := by
  have hbyte : ∀ n : ℕ, (x >>> n &&& 0xff#32).setWidth 8 = (x >>> n).setWidth 8 := fun n => by
    refine BitVec.eq_of_getLsbD_eq fun k hk => ?_
    have hff : ∀ k < 8, (0xff#32).getLsbD k = true := by decide
    simp only [BitVec.getLsbD_setWidth, BitVec.getLsbD_and, hff k hk, Bool.and_true]
  have hsum : ∀ n : ℕ, hweight8 ((x >>> n).setWidth 8) = ∑ k ∈ Finset.range 8,
      (x.getLsbD (n + k)).toNat := fun n => by
    rw [hweight8_eq]
    refine Finset.sum_congr rfl fun k hk => ?_
    rw [BitVec.getLsbD_setWidth, decide_eq_true (Finset.mem_range.1 hk), Bool.true_and,
      BitVec.getLsbD_ushiftRight]
  have hzero : x &&& 0xff#32 = x >>> 0 &&& 0xff#32 := rfl
  rw [hweight32, hzero, hbyte, hbyte, hbyte, hbyte, hsum, hsum, hsum, hsum,
    ← Finset.sum_range fun k => (x.getLsbD k).toNat, Finset.sum_range_add _ 24 8,
      Finset.sum_range_add _ 16 8,
    Finset.sum_range_add _ 8 8]
  simp

theorem weight_pairs (h : c &&& 0xc0 = 0) :
    hweight32 l + hweight32 l' + hweight8 c = weight (pairs c l l') := by
  have h₆ := congrArg (BitVec.getLsbD · 6) h
  have h₇ := congrArg (BitVec.getLsbD · 7) h
  simp only [BitVec.getLsbD_and] at h₆ h₇
  rw [weight, Fintype.sum_sum_type, hweight8_eq, hweight32_eq, hweight32_eq,
    ← Finset.sum_add_distrib]
  refine congrArg _ ?_
  simp_all [pairs, Finset.sum_range_succ, Fin.sum_univ_succ]
  omega

/-- What a correcting function does upon a verdict; a place beyond the data cannot be corrected. -/
def Answers (data : Data) (nBytes : ℕ) (readEcc testEcc : EccOther) (r : Corrected EccOther) :
    Verdict Lines → Prop
  | .clean => r = ⟨0, data, readEcc⟩
  | .data p => ∀ q, p = pos q → q.1.toNat < nBytes →
      r = ⟨1, flipBit data q.1.toNat q.2.toNat, readEcc⟩
  | .code => r = ⟨1, data, testEcc⟩
  | .bad => r = ⟨-1, data, readEcc⟩

/-- The bit that is corrected is that the syndrome is the label of. -/
theorem bit_eq {q : BitVec 3} (h : ∀ k : Fin 3, c.getLsbD (2 * k + 1) = q.getLsbD k) :
    (pick c 0x20 0x04 ||| pick c 0x08 0x02 ||| pick c 0x02 0x01).toNat = q.toNat := by
  have h₅ := fun x : BitVec 8 => getLsbD_pick x 5
  have h₃ := fun x : BitVec 8 => getLsbD_pick x 3
  have h₁ := fun x : BitVec 8 => getLsbD_pick x 1
  change ∀ x : BitVec 8, ∀ bit k, (pick x 0x20 bit).getLsbD k = _ at h₅
  change ∀ x : BitVec 8, ∀ bit k, (pick x 0x08 bit).getLsbD k = _ at h₃
  change ∀ x : BitVec 8, ∀ bit k, (pick x 0x02 bit).getLsbD k = _ at h₁
  have hall : ∀ k : Fin 8, (pick c 0x20 0x04 ||| pick c 0x08 0x02 ||| pick c 0x02 0x01).getLsbD k =
      (q.setWidth 8).getLsbD k := by
    have := h 0; have := h 1; have := h 2
    intro k
    simp only [BitVec.getLsbD_or, h₅, h₃, h₁]
    fin_cases k <;> simp_all
  rw [BitVec.eq_of_getLsbD_eq fun k hk => hall ⟨k, hk⟩, BitVec.toNat_setWidth_of_le (by decide)]

/-- What is answered for a stored code and the one calculated is what the syndrome tells. -/
theorem eccCorrectOther_answers {readEcc testEcc : EccOther}
    (h : (readEcc.colParity ^^^ testEcc.colParity) &&& 0xc0 = 0) : Answers data n readEcc testEcc
      (eccCorrectOther data n readEcc testEcc) (verdict (diff readEcc testEcc)) := by
  rw [eccCorrectOther, diff, verdict]
  dsimp only
  generalize readEcc.colParity ^^^ testEcc.colParity = c,
    readEcc.lineParity ^^^ testEcc.lineParity = l,
    readEcc.lineParityPrime ^^^ testEcc.lineParityPrime = l' at h ⊢
  simp only [pairs_eq_clean h, valid_pairs, weight_pairs h]
  generalize weight (pairs c l l') = k
  by_cases hclean : pairs c l l' = clean
  · rw [if_pos hclean, if_pos hclean]
    rfl
  · rw [if_neg hclean, if_neg hclean]
    by_cases hvalid : Valid (pairs c l l')
    · rw [if_pos hvalid, if_pos hvalid]
      intro q hq hlt
      have hbyte : l = q.1 := BitVec.eq_of_getLsbD_eq fun k hk => congrFun hq (.inl ⟨k, hk⟩)
      rw [hbyte, if_neg (Nat.not_le.2 hlt), bit_eq fun k => congrFun hq (.inr k)]
    · rw [if_neg hvalid, if_neg hvalid]
      by_cases hone : k = 1
      · rw [if_pos hone, if_pos hone]
        rfl
      · rw [if_neg hone, if_neg hone]
        rfl

/-- Data of `n` bytes, and the code kept for it. -/
structure Stored where
  data : Data
  ecc : EccOther

/-- A place in `n` bytes. -/
abbrev PlaceIn (n : ℕ) := {q : Place // q.1.toNat < n}

namespace Stored

/-- Storing data of `n` bytes. -/
def store (data : Data) (n : ℕ) : Stored := ⟨data, eccCalcOther data n⟩

/-- A bit of what is stored is flipped. -/
def fault (s : Stored) : Fault (PlaceIn n) Lines → Stored
  | .data q => { s with data := flipBit s.data q.1.1.toNat q.1.2.toNat }
  | .code k b => { s with ecc := s.ecc.flipCode k b }

/-- Reading it back. -/
def correct (s : Stored) (n : ℕ) : Corrected EccOther :=
  eccCorrectOther s.data n s.ecc (eccCalcOther s.data n)

def syndrome (s : Stored) (n : ℕ) : Syndrome Lines := diff s.ecc (eccCalcOther s.data n)

/-- The bits the code has no use for are not set. -/
def Padded (s : Stored) : Prop := s.ecc.colParity &&& 0xc0 = 0

variable {s : Stored}

theorem padded_store (data : Data) (n : ℕ) : (store data n).Padded := by
  have h : ∀ c : BitVec 8, (c >>> 2 &&& 0x3f#8) &&& 0xc0 = 0 := by decide +kernel
  exact h _

theorem Padded.fault (h : s.Padded) (f : Fault (PlaceIn n) Lines) : (s.fault f).Padded := by
  rcases f with q | ⟨k | k, b⟩
  · exact h
  · cases b <;> exact h
  · have hflip : ∀ c : BitVec 8, ∀ k : Fin 3, ∀ b : Bool,
        (c ^^^ 1#8 <<< (2 * k.val + b.toNat)) &&& 0xc0 = c &&& 0xc0 := by decide +kernel
    exact (hflip _ k b).trans h

theorem Padded.diff (h : s.Padded) :
    (s.ecc.colParity ^^^ (eccCalcOther s.data n).colParity) &&& 0xc0 = 0 := by
  have hxor : ∀ c c' : BitVec 8, (c ^^^ c') &&& 0xc0 = (c &&& 0xc0) ^^^ (c' &&& 0xc0) :=
    fun c c' => by
    refine BitVec.eq_of_getLsbD_eq fun i hi => ?_
    simp only [BitVec.getLsbD_and, BitVec.getLsbD_xor]
    cases c.getLsbD i <;> cases c'.getLsbD i <;> cases (0xc0 : BitVec 8).getLsbD i <;> rfl
  have hcalc : (eccCalcOther s.data n).colParity &&& 0xc0 = 0 := padded_store s.data n
  rw [hxor, h, hcalc]
  rfl

theorem syndrome_store (data : Data) (n : ℕ) : (store data n).syndrome n = clean := by
  funext k
  rcases k with k | k <;> simp [syndrome, store, EccOther.diff, pairs, clean]

/-- Differences add up. -/
theorem diff_add (e e' e'' : EccOther) :
    EccOther.diff e e'' = add (EccOther.diff e e') (EccOther.diff e' e'') := by
  funext k
  rcases k with k | k <;> refine Prod.ext ?_ ?_ <;> simp [EccOther.diff, pairs]

theorem diff_flipCode {e e' : EccOther} (k : Lines) (b : Bool) :
    EccOther.diff (e.flipCode k b) e' = add (EccOther.diff e e') (mark k b) := by
  have h3 : ∀ k l : Fin 3, ∀ b, ((1#8 <<< (2 * k.val + b.toNat)).getLsbD (2 * l + 1),
      (1#8 <<< (2 * k.val + b.toNat)).getLsbD (2 * l)) = mark k b l := by decide +kernel
  have hone : ∀ k l : Fin 32, (1#32 <<< k.val).getLsbD l = decide (l = k) := fun k l => by
    rw [getLsbD_one_shiftLeft k.isLt, decide_eq_decide, Fin.ext_iff]
  have hxor : ∀ {w} (c u c' : BitVec w) (i : ℕ),
      (c ^^^ u ^^^ c').getLsbD i = ((c ^^^ c').getLsbD i ^^ u.getLsbD i) :=
    fun c u c' i => by
      simp only [BitVec.getLsbD_xor]
      cases c.getLsbD i <;> cases u.getLsbD i <;> cases c'.getLsbD i <;> rfl
  funext l
  rcases k with k | k <;> rcases l with l | l
  · rw [add, mark_inl, mark]
    cases b
    · refine Prod.ext ?_ ((hxor ..).trans ?_)
      · split_ifs <;> exact (Bool.xor_false _).symm
      · rw [hone]
        split_ifs with h <;> simp [h, EccOther.diff, pairs]
    · refine Prod.ext ((hxor ..).trans ?_) ?_
      · rw [hone]
        split_ifs with h <;> simp [h, EccOther.diff, pairs]
      · split_ifs <;> exact (Bool.xor_false _).symm
  · cases b <;> simp [EccOther.diff, flipCode, pairs, add, mark]
  · simp [EccOther.diff, flipCode, pairs, add, mark]
  · rw [add, mark_inr, ← h3 k l b]
    exact Prod.ext (hxor ..) (hxor ..)

/-- The label of a place, in the parities of its byte. -/
theorem diff_flipBit (q : PlaceIn n) :
    EccOther.diff (eccCalcOther data n) (eccCalcOther (flipBit data q.1.1.toNat q.1.2.toNat) n) =
      label (pos q.1) := by
  obtain ⟨⟨byte, bit⟩, hlt⟩ := q
  have hcol : ∀ bit : BitVec 3, ∀ k : Fin 3,
      ((columnParity (1#8 <<< bit.toNat)).1 >>> 2 &&& 0x3f#8).getLsbD (2 * k + 1) = bit.getLsbD k ∧
        ((columnParity (1#8 <<< bit.toNat)).1 >>> 2 &&& 0x3f#8).getLsbD (2 * k) =
          !bit.getLsbD k := by decide +kernel
  have hxor : ∀ c d : BitVec 8, (c >>> 2 &&& 0x3f#8) ^^^ ((c ^^^ d) >>> 2 &&& 0x3f#8) =
      d >>> 2 &&& 0x3f#8 := fun c d => by
    refine BitVec.eq_of_getLsbD_eq fun i hi => ?_
    simp only [BitVec.getLsbD_and, BitVec.getLsbD_xor, BitVec.getLsbD_ushiftRight]
    cases c.getLsbD (2 + i) <;> cases d.getLsbD (2 + i) <;> cases (0x3f#8).getLsbD i <;> rfl
  have hself : ∀ c d : BitVec 32, c ^^^ (c ^^^ d) = d := fun c d => by
    rw [← BitVec.xor_assoc, BitVec.xor_self, BitVec.zero_xor]
  funext k
  rw [eccCalcOther, eccCalcOther, parities_flipBit additive_columnParity hlt bit.isLt,
    BitVec.ofNat_toNat, BitVec.setWidth_eq, EccOther.diff]
  dsimp only [Parities.add]
  rw [hxor, hself, hself]
  rcases k with k | k
  · simp [pairs, label, pos]
  · exact Prod.ext (hcol bit k).1 (hcol bit k).2

theorem syndrome_fault (f : Fault (PlaceIn n) Lines) :
    (s.fault f).syndrome n = add (s.syndrome n) (f.syndrome fun q => pos q.1) := by
  rcases f with q | ⟨k, b⟩
  · rw [syndrome, diff_add _ (eccCalcOther s.data n)]
    exact congrArg _ (diff_flipBit q)
  · exact diff_flipCode k b

/-- The same of a block and its code. -/
theorem answers (h : s.Padded) :
    Answers s.data n s.ecc (eccCalcOther s.data n) (s.correct n) (verdict (s.syndrome n)) :=
  eccCorrectOther_answers h.diff

theorem correct_store (data : Data) (n : ℕ) :
    (store data n).correct n = ⟨0, data, eccCalcOther data n⟩ := by
  have := answers (n := n) (padded_store data n)
  rwa [syndrome_store, verdict_clean] at this

/-- One wrong bit is corrected, wherever it is. -/
theorem correct_fault (f : Fault (PlaceIn n) Lines) :
    ((store data n).fault f).correct n = ⟨1, data, eccCalcOther data n⟩ := by
  have := answers (n := n) ((padded_store data n).fault f)
  rw [syndrome_fault, syndrome_store, clean_add, verdict_fault (by decide)] at this
  rcases f with q | ⟨k, b⟩
  · rw [this q.1 rfl q.2, fault]
    dsimp only
    rw [store, flipBit_flipBit]
  · exact this

/-- Two wrong bits are found out, and nothing is changed. -/
theorem correct_faults {f f' : Fault (PlaceIn n) Lines} (h : f ≠ f') :
    (((store data n).fault f).fault f').correct n =
      ⟨-1, (((store data n).fault f).fault f').data, (((store data n).fault f).fault f').ecc⟩ := by
  have hpos : Function.Injective fun q : PlaceIn n => pos q.1 :=
    pos_injective.comp Subtype.val_injective
  have := answers (n := n) (((padded_store data n).fault f).fault f')
  rwa [syndrome_fault, syndrome_fault, syndrome_store, clean_add,
    verdict_faults (by decide) hpos h] at this

/-- What is stored comes back, also with a bit of it wrong; that two are wrong is found out. -/
theorem eccCorrectOther_corrects (data : Data) (n : ℕ) :
    (store data n).correct n = ⟨0, data, eccCalcOther data n⟩ ∧
    (∀ f : Fault (PlaceIn n) Lines,
      ((store data n).fault f).correct n = ⟨1, data, eccCalcOther data n⟩) ∧
      ∀ f f' : Fault (PlaceIn n) Lines, f ≠ f' → (((store data n).fault f).fault f').correct n =
        ⟨-1, (((store data n).fault f).fault f').data, (((store data n).fault f).fault f').ecc⟩ :=
  ⟨correct_store data n, correct_fault, fun _ _ => correct_faults⟩

end Stored

end EccOther

end DemoOs
