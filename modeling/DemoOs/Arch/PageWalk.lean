import DemoOs.Arch.HashTable
import DemoOs.Lib.Search
import Mathlib.Data.List.Find

/-!
# The walk of the hardware

How the processor looks a page up, as the architecture has it: `SDR1` and the hash of the page give
the address of a group (`pteg`); an entry of the group translates the page if it is valid and has
the VSID and the abbreviated index of the page, its bit `H` telling which of the two hashes was
taken (`Page.Matches`). The primary group is searched first (`HashTable.walk`).

The code takes the same groups, by masks and shifts of words (`getPTEG_primaryHash`,
`getPTEG_secondaryHash`). An entry translates one page only: what the abbreviated index leaves out
of the index of the page, the group tells (`Page.eq_of_pteg`). If the bit `H` is not looked at,
there is another one, the `mirror` of the page, but only in the smallest of the tables
(`eq_mirror_of_pteg`).
-/

namespace DemoOs

namespace Mmu

/-- A virtual page: the VSID of its segment and its index there. -/
structure Page where
  vsid : BitVec 24
  index : BitVec 16
  deriving DecidableEq

/-- The page of an effective address. -/
def page (sr : SRs) (ea : BitVec 32) : Page :=
  ⟨vsid (sr (ea.extractLsb' 28 4)), ea.extractLsb' 12 16⟩

namespace Page

/-- The abbreviated page index. -/
def api (p : Page) : BitVec 6 := p.index.extractLsb' 10 6

/-- The primary hash, or the secondary one. -/
def hash (p : Page) : Bool → BitVec 19
  | false => p.vsid.setWidth 19 ^^^ p.index.setWidth 19
  | true => ~~~(p.vsid.setWidth 19 ^^^ p.index.setWidth 19)

/-- The entry translates the page, if in a group selected by this hash. -/
def Matches (p : Page) (h : Bool) (e : PTE) : Bool :=
  e.v && e.h == h && e.vsid == p.vsid && e.api == p.api

/-- The page of the segment with the same abbreviated index and the complementary hash. -/
def mirror (p : Page) : Page := ⟨p.vsid, p.index ^^^ 0x3ff⟩

end Page

/-- The address of the group a hash selects: `HTABORG`, the high bits of the hash under `HTABMASK`,
    and the low bits of the hash. -/
def pteg (sdr1 : BitVec 32) (hash : BitVec 19) : BitVec 32 :=
  sdr1.extractLsb' 25 7 ++
    (sdr1.extractLsb' 16 9 ||| (sdr1.extractLsb' 0 9 &&& hash.extractLsb' 10 9)) ++
    hash.extractLsb' 0 10 ++ 0#6

namespace HashTable

/-- One of the two groups of a page. -/
def group (t : HashTable) (p : Page) (h : Bool) : BitVec 32 := pteg t.sdr1 (p.hash h)

/-- The walk: the entry that translates the page. -/
def walk (t : HashTable) (p : Page) : Option Slot :=
  (t.findIn (t.group p false) (p.Matches false)).or (t.findIn (t.group p true) (p.Matches true))

/-- What the page is translated to: the second word of the entry. -/
def translation (t : HashTable) (p : Page) : Option (BitVec 32) :=
  (t.walk p).map fun s => (t.ptes s).phyWord

/-- The base is a multiple of the size of the table, which the mask is for. -/
structure Aligned (t : HashTable) : Prop where
  base : ∀ i < 16, t.baseAddr.getLsbD i = false
  mask : ∀ i ≥ 9, t.hashMask.getLsbD i = false
  disjoint : ∀ i, t.hashMask.getLsbD i → t.baseAddr.getLsbD (i + 16) = false

/-- The bits of a mask of the low bits. -/
theorem getLsbD_lowMask {k : ℕ} (hk : k ≤ 32) (i : ℕ) :
    ((BitVec.allOnes k).setWidth 32).getLsbD i = decide (i < k) := by
  rw [BitVec.getLsbD_setWidth, BitVec.getLsbD_allOnes]
  grind

/-- One more size to be tested for. -/
theorem exists_masks_ite {c : Prop} [Decidable c] {m m' : BitVec 32 × BitVec 32} (k : ℕ)
    (hk : k ≤ 9)
    (hm : m = (BitVec.allOnes 32 <<< (16 + k), (BitVec.allOnes k).setWidth 32))
    (hm' : ∃ k ≤ 9, m' = (BitVec.allOnes 32 <<< (16 + k), (BitVec.allOnes k).setWidth 32)) :
    ∃ k ≤ 9, (if c then m else m') = (BitVec.allOnes 32 <<< (16 + k),
      (BitVec.allOnes k).setWidth 32) := by
  split
  · exact ⟨k, hk, hm⟩
  · exact hm'

/-- The masks of a table go together. -/
theorem masks_cases (size : ℕ) : ∃ k ≤ 9,
    masks size = (BitVec.allOnes 32 <<< (16 + k), (BitVec.allOnes k).setWidth 32) := by
  refine exists_masks_ite 9 (by decide) (by decide) ?_
  refine exists_masks_ite 8 (by decide) (by decide) ?_
  refine exists_masks_ite 7 (by decide) (by decide) ?_
  refine exists_masks_ite 6 (by decide) (by decide) ?_
  refine exists_masks_ite 5 (by decide) (by decide) ?_
  refine exists_masks_ite 4 (by decide) (by decide) ?_
  refine exists_masks_ite 3 (by decide) (by decide) ?_
  refine exists_masks_ite 2 (by decide) (by decide) ?_
  refine exists_masks_ite 1 (by decide) (by decide) ?_
  exact ⟨0, by decide⟩

theorem aligned_init (phyAddr : BitVec 32) (size : ℕ) : (init phyAddr size).Aligned := by
  obtain ⟨k, hk, hmasks⟩ := masks_cases size
  have hbase (i : ℕ) : (init phyAddr size).baseAddr.getLsbD i =
      (phyAddr.getLsbD i && decide (16 + k ≤ i ∧ i < 32)) := by
    simp only [init, hmasks, BitVec.getLsbD_and, BitVec.getLsbD_shiftLeft, BitVec.getLsbD_allOnes]
    grind
  have hmask (i : ℕ) : (init phyAddr size).hashMask.getLsbD i = decide (i < k) := by
    simp only [init, hmasks]
    exact getLsbD_lowMask (by omega) i
  constructor
  · grind
  · grind
  · grind

/-! ## The groups of a page -/

variable {t : HashTable} {p p' : Page} {h : Bool}

theorem Aligned.getLsbD_sdr1_low (ht : t.Aligned) {i : ℕ} (hi : i < 16) :
    t.sdr1.getLsbD i = t.hashMask.getLsbD i := by
  rw [sdr1, BitVec.getLsbD_or, ht.base i hi, Bool.false_or]

theorem Aligned.getLsbD_sdr1_high (ht : t.Aligned) {i : ℕ} (hi : 9 ≤ i) :
    t.sdr1.getLsbD i = t.baseAddr.getLsbD i := by
  rw [sdr1, BitVec.getLsbD_or, ht.mask i hi, Bool.or_false]

/-- The bits of the address of a group. -/
theorem Aligned.getLsbD_pteg (ht : t.Aligned) (hash : BitVec 19) {i : ℕ} (hi : i < 32) :
    (pteg t.sdr1 hash).getLsbD i =
      if i < 6 then false
      else if i < 16 then hash.getLsbD (i - 6)
      else t.baseAddr.getLsbD i || (t.hashMask.getLsbD (i - 16) && hash.getLsbD (i - 6)) := by
  have hlow := ht.getLsbD_sdr1_low (i := i - 16)
  have hhigh := ht.getLsbD_sdr1_high (i := i)
  have hmask := ht.mask (i - 16)
  simp only [pteg, BitVec.getLsbD_append, BitVec.getLsbD_or, BitVec.getLsbD_and,
    BitVec.getLsbD_extractLsb', BitVec.getLsbD_zero]
  grind

/-- A hash in a word selects the same group as its low 19 bits. -/
theorem Aligned.getPTEG_eq (ht : t.Aligned) {w : BitVec 32} {hash : BitVec 19}
    (hw : ∀ i < 19, w.getLsbD i = hash.getLsbD i) : t.getPTEG w = pteg t.sdr1 hash := by
  have hlower : (0x3ff : BitVec 32) = (BitVec.allOnes 10).setWidth 32 := by decide
  have hhigher : (0x7fc00 : BitVec 32) = (BitVec.allOnes 9).setWidth 32 <<< 10 := by decide
  refine BitVec.eq_of_getLsbD_eq fun i hi => ?_
  have hbase := ht.base i
  have hmask := ht.mask (i - 16)
  have hbit := hw (i - 6)
  rw [ht.getLsbD_pteg _ hi, getPTEG, hlower, hhigher]
  simp only [BitVec.getLsbD_or, BitVec.getLsbD_and, BitVec.getLsbD_shiftLeft,
    BitVec.getLsbD_ushiftRight, getLsbD_lowMask (show 10 ≤ 32 by decide),
    getLsbD_lowMask (show 9 ≤ 32 by decide)]
  grind

/-- The page `primaryHash` is taken of. -/
theorem getLsbD_primaryHash (va : BitVec 32) (v : BitVec 24) {i : ℕ} (hi : i < 19) :
    (primaryHash va v).getLsbD i =
      (Page.hash ⟨v, va.extractLsb' 12 16⟩ false).getLsbD i := by
  have hhash : (0x7ffff : BitVec 32) = (BitVec.allOnes 19).setWidth 32 := by decide
  have hpage : (0xffff : BitVec 32) = (BitVec.allOnes 16).setWidth 32 := by decide
  rw [primaryHash, hhash, hpage]
  simp only [Page.hash, BitVec.getLsbD_xor, BitVec.getLsbD_and, BitVec.getLsbD_setWidth,
    BitVec.getLsbD_ushiftRight, BitVec.getLsbD_extractLsb', BitVec.getLsbD_allOnes]
  grind

theorem Aligned.getPTEG_primaryHash (ht : t.Aligned) (va : BitVec 32) (v : BitVec 24) :
    t.getPTEG (primaryHash va v) = t.group ⟨v, va.extractLsb' 12 16⟩ false :=
  ht.getPTEG_eq fun _ hi => getLsbD_primaryHash va v hi

theorem Aligned.getPTEG_secondaryHash (ht : t.Aligned) (va : BitVec 32) (v : BitVec 24) :
    t.getPTEG (secondaryHash (primaryHash va v)) = t.group ⟨v, va.extractLsb' 12 16⟩ true := by
  have hhash : (0x7ffff : BitVec 32) = (BitVec.allOnes 19).setWidth 32 := by decide
  refine ht.getPTEG_eq fun i hi => ?_
  have hprimary := getLsbD_primaryHash va v hi
  rw [secondaryHash, hhash, BitVec.getLsbD_and, getLsbD_lowMask (by decide), BitVec.getLsbD_not,
    hprimary]
  simp only [Page.hash, BitVec.getLsbD_not]
  grind

end HashTable

theorem PTE.virtAddr2API_eq (va : BitVec 32) (v : BitVec 24) :
    PTE.virtAddr2API va = Page.api ⟨v, va.extractLsb' 12 16⟩ := by
  have hapi : (0x3F : BitVec 32) = (BitVec.allOnes 6).setWidth 32 := by decide
  refine BitVec.eq_of_getLsbD_eq fun i hi => ?_
  rw [PTE.virtAddr2API, hapi]
  simp only [Page.api, BitVec.getLsbD_setWidth, BitVec.getLsbD_and, BitVec.getLsbD_ushiftRight,
    BitVec.getLsbD_extractLsb', BitVec.getLsbD_allOnes]
  grind

/-- `locatePTE` asks for the segment register of an address that is below the first boundary. -/
theorem getSR_shift (sr : SRs) (va : BitVec 32) : getSR sr (va >>> 28) = sr 0 := by
  have hzero : (va >>> 28).extractLsb' 28 4 = 0 := by
    refine BitVec.eq_of_getLsbD_eq fun i hi => ?_
    simp only [BitVec.getLsbD_extractLsb', BitVec.getLsbD_ushiftRight]
    grind
  rw [getSR, hzero]

/-! ## The pages of an entry -/

namespace Page

variable {p p' : Page} {h : Bool} {i : ℕ}

theorem getLsbD_hash (hi : i < 19) :
    (p.hash h).getLsbD i = (h ^^ (p.vsid.getLsbD i ^^ p.index.getLsbD i)) := by
  cases h <;>
  · simp only [hash, BitVec.getLsbD_xor, BitVec.getLsbD_not, BitVec.getLsbD_setWidth]
    grind

theorem getLsbD_index_of_api (hapi : p.api = p'.api) (hi : 10 ≤ i) :
    p.index.getLsbD i = p'.index.getLsbD i := by
  by_cases hlt : i < 16
  · have hbit := congrArg (·.getLsbD (i - 10)) hapi
    simp only [api, BitVec.getLsbD_extractLsb', Nat.add_sub_cancel' hi] at hbit
    grind
  · rw [BitVec.getLsbD_of_ge _ _ (by omega), BitVec.getLsbD_of_ge _ _ (by omega)]

theorem getLsbD_index_mirror :
    p.mirror.index.getLsbD i = (p.index.getLsbD i ^^ decide (i < 10)) := by
  have hlow : (0x3ff : BitVec 16) = (BitVec.allOnes 10).setWidth 16 := by decide
  rw [mirror, hlow]
  simp only [BitVec.getLsbD_xor, BitVec.getLsbD_setWidth, BitVec.getLsbD_allOnes]
  grind

theorem api_mirror : p.mirror.api = p.api := by
  refine BitVec.eq_of_getLsbD_eq fun i hi => ?_
  simp only [api, BitVec.getLsbD_extractLsb', getLsbD_index_mirror]
  grind

end Page

namespace HashTable

variable {t : HashTable} {p p' : Page} {h h' : Bool}

/-- The bits of the index that the abbreviated index leaves out. -/
theorem Aligned.getLsbD_group (ht : t.Aligned) {i : ℕ} (hi : i < 10) :
    (t.group p h).getLsbD (i + 6) = (h ^^ (p.vsid.getLsbD i ^^ p.index.getLsbD i)) := by
  rw [group, ht.getLsbD_pteg _ (by omega), if_neg (by omega), if_pos (by omega),
    Nat.add_sub_cancel, Page.getLsbD_hash (by omega)]

/-- The VSID, the abbreviated index and the group, with the hash it was selected by, tell the
    page. -/
theorem Aligned.eq_of_group (ht : t.Aligned) (hvsid : p.vsid = p'.vsid) (hapi : p.api = p'.api)
    (hgroup : t.group p h = t.group p' h) : p = p' := by
  have hindex : p.index = p'.index := by
    refine BitVec.eq_of_getLsbD_eq fun i _ => ?_
    by_cases hi : i < 10
    · have hbit := congrArg (·.getLsbD (i + 6)) hgroup
      simpa only [ht.getLsbD_group hi, hvsid, Bool.xor_right_inj] using hbit
    · exact Page.getLsbD_index_of_api hapi (by omega)
  cases p
  cases p'
  exact Page.mk.injEq .. ▸ ⟨hvsid, hindex⟩

/-- In the smallest table, the groups of a page are those of its mirror. -/
theorem Aligned.group_mirror (ht : t.Aligned) (hmask : t.hashMask = 0#32) :
    t.group p.mirror h = t.group p (!h) := by
  refine BitVec.eq_of_getLsbD_eq fun i hi => ?_
  simp only [group, ht.getLsbD_pteg _ hi, hmask, BitVec.getLsbD_zero, Bool.false_and]
  split_ifs with h₁ h₂
  · rfl
  · rw [Page.getLsbD_hash (by omega), Page.getLsbD_hash (by omega), Page.getLsbD_index_mirror]
    simp only [Page.mirror]
    grind
  · rfl

/-- The primary group of a page is the secondary one of another page of the segment only in the
    smallest table, and only if that is its mirror. -/
theorem Aligned.mirror_of_group (ht : t.Aligned) (hvsid : p'.vsid = p.vsid)
    (hapi : p'.api = p.api) (hgroup : t.group p' (!h) = t.group p h) :
    t.hashMask = 0#32 ∧ p' = p.mirror := by
  have hmask : t.hashMask = 0#32 := by
    refine BitVec.eq_of_getLsbD_eq fun i _ => ?_
    rw [BitVec.getLsbD_zero]
    by_cases hi : i < 9
    · -- The hashes differ in all high bits, of which those under the mask are seen in the address.
      have hbit := congrArg (·.getLsbD (i + 16)) hgroup
      have hindex := Page.getLsbD_index_of_api hapi (show 10 ≤ i + 10 by omega)
      simp only [group, ht.getLsbD_pteg _ (show i + 16 < 32 by omega),
        show ¬i + 16 < 6 by omega, show ¬i + 16 < 16 by omega, if_false, Nat.add_sub_cancel,
        show i + 16 - 6 = i + 10 by omega, Page.getLsbD_hash (show i + 10 < 19 by omega), hvsid,
        hindex] at hbit
      have hdisjoint := ht.disjoint i
      grind
    · exact ht.mask i (by omega)
  have hmirror : t.group p' (!h) = t.group p.mirror (!h) := by
    rw [ht.group_mirror hmask, Bool.not_not, hgroup]
  exact ⟨hmask, ht.eq_of_group hvsid (hapi.trans Page.api_mirror.symm) hmirror⟩

/-! ## The groups of a table -/

open Powerpc (optimalSize)

/-- A group of the table: it starts at a multiple of its 64 bytes, and ends with the table or
    before. -/
structure IsGroup (base : BitVec 32) (size : ℕ) (g : BitVec 32) : Prop where
  aligned : 64 ∣ g.toNat
  base_le : base.toNat ≤ g.toNat
  le_end : g.toNat + 64 ≤ base.toNat + size

/-- The sizes of a table are powers of two. -/
theorem optimalSize_cases {total : ℕ} (h : 2 ^ 23 ≤ total) :
    ∃ k ≤ 9, optimalSize total = 2 ^ (16 + k) := by
  have hite {c : Prop} [Decidable c] {a b : ℕ} (ha : 64 * 2 ^ 10 ≤ a) (hb : 64 * 2 ^ 10 ≤ b) :
      64 * 2 ^ 10 ≤ if c then a else b := by
    split
    · exact ha
    · exact hb
  have hle : 64 * 2 ^ 10 ≤ optimalSize total := by
    unfold optimalSize
    rw [if_neg (by omega)]
    iterate 9 refine hite (by decide) ?_
    decide
  obtain ⟨k, hk, hk', heq⟩ := Powerpc.optimalSize_eq total hle
  exact ⟨k - 16, by omega, by rw [heq, Nat.add_sub_cancel' hk]⟩

/-- The masks for each of these sizes. -/
theorem masks_two_pow {k : ℕ} (hk : k ≤ 9) :
    masks (2 ^ (16 + k)) = (BitVec.allOnes 32 <<< (16 + k), (BitVec.allOnes k).setWidth 32) := by
  have hall : ∀ k : Fin 10, masks (2 ^ (16 + k.val)) =
      (BitVec.allOnes 32 <<< (16 + k.val), (BitVec.allOnes k.val).setWidth 32) := by
    decide
  exact hall ⟨k, by omega⟩

/-- A table of `2 ^ (16 + k)` bytes at a multiple of its size. -/
structure Sized (t : HashTable) (base : BitVec 32) (k : ℕ) : Prop where
  le : k ≤ 9
  dvd : 2 ^ (16 + k) ∣ base.toNat
  baseAddr : t.baseAddr = base
  hashMask : t.hashMask = (BitVec.allOnes k).setWidth 32

variable {base : BitVec 32} {k : ℕ}

theorem getLsbD_of_dvd {n i : ℕ} (hdvd : 2 ^ n ∣ base.toNat) (hi : i < n) :
    base.getLsbD i = false := by
  obtain ⟨q, hq⟩ := hdvd
  rw [BitVec.getLsbD, hq, Nat.testBit_two_pow_mul]
  simp [Nat.not_le.2 hi]

theorem sized_init (hk : k ≤ 9) (hdvd : 2 ^ (16 + k) ∣ base.toNat) :
    (init base (2 ^ (16 + k))).Sized base k := by
  refine ⟨hk, hdvd, ?_, by rw [init, masks_two_pow hk]⟩
  refine BitVec.eq_of_getLsbD_eq fun i hi => ?_
  have hlow := getLsbD_of_dvd (i := i) hdvd
  simp only [init, masks_two_pow hk, BitVec.getLsbD_and, BitVec.getLsbD_shiftLeft,
    BitVec.getLsbD_allOnes]
  grind

/-- The group a hash selects: there are `2 ^ (10 + k)` of them. -/
theorem Sized.toNat_pteg (hs : t.Sized base k) (ht : t.Aligned) (hash : BitVec 19) :
    (pteg t.sdr1 hash).toNat = base.toNat + 2 ^ 6 * (hash.toNat % 2 ^ (10 + k)) := by
  obtain ⟨q, hq⟩ := hs.dvd
  have hk := hs.le
  have hpow : 2 ^ (16 + k) = 2 ^ 6 * 2 ^ (10 + k) := by
    rw [← Nat.pow_add]
    congr 1
    omega
  have hlt : 2 ^ 6 * (hash.toNat % 2 ^ (10 + k)) < 2 ^ (16 + k) := by
    have := Nat.mod_lt hash.toNat (Nat.two_pow_pos (10 + k))
    omega
  -- Bit by bit: the mask cuts the hash off where the base begins.
  refine Nat.eq_of_testBit_eq fun i => ?_
  rw [hq, Nat.testBit_two_pow_mul_add q hlt, Nat.testBit_two_pow_mul, Nat.testBit_mod_two_pow]
  by_cases hi : i < 32
  · -- The bits of the hash are below those of the base.
    have hbit := ht.getLsbD_pteg hash hi
    have hbase : base.getLsbD i = (decide (16 + k ≤ i) && q.testBit (i - (16 + k))) := by
      rw [BitVec.getLsbD, hq, Nat.testBit_two_pow_mul]
    rw [hs.baseAddr, hbase, hs.hashMask, getLsbD_lowMask (by omega)] at hbit
    rw [BitVec.getLsbD] at hbit
    rw [hbit]
    simp only [BitVec.getLsbD]
    grind
  · have hq0 : q.testBit (i - (16 + k)) = false := by
      have hbase : base.toNat.testBit i = false :=
        Nat.testBit_lt_two_pow (base.isLt.trans_le (Nat.pow_le_pow_right (by decide) (by omega)))
      rw [hq, Nat.testBit_two_pow_mul] at hbase
      simpa [show 16 + k ≤ i by omega] using hbase
    rw [if_neg (by omega), hq0]
    exact Nat.testBit_lt_two_pow
      ((pteg t.sdr1 hash).isLt.trans_le (Nat.pow_le_pow_right (by decide) (by omega)))

theorem Sized.isGroup (hs : t.Sized base k) (ht : t.Aligned) (hash : BitVec 19) :
    IsGroup base (2 ^ (16 + k)) (pteg t.sdr1 hash) := by
  have hpteg := hs.toNat_pteg ht hash
  have hlt := Nat.mod_lt hash.toNat (Nat.two_pow_pos (10 + k))
  have hpow : 2 ^ (16 + k) = 2 ^ 6 * 2 ^ (10 + k) := by
    rw [← Nat.pow_add]
    congr 1
    omega
  have hdvd : 64 ∣ base.toNat := (Nat.pow_dvd_pow 2 (show 6 ≤ 16 + k by omega)).trans hs.dvd
  exact ⟨hpteg ▸ Nat.dvd_add hdvd (Nat.dvd_mul_right ..), by omega, by omega⟩

/-- The two groups of a page differ: so do the lowest bits of the hashes. -/
theorem Aligned.group_ne (ht : t.Aligned) : t.group p false ≠ t.group p true := by
  intro h
  have hbit := congrArg (·.getLsbD (0 + 6)) h
  simp only [ht.getLsbD_group (show 0 < 10 by decide), Bool.false_xor, Bool.true_xor] at hbit
  exact (Bool.eq_not_self _).1 hbit

/-- Every group of the table is the primary one of the first page of some segment. -/
theorem Sized.exists_page (hs : t.Sized base k) (ht : t.Aligned) {g : BitVec 32}
    (hg : IsGroup base (2 ^ (16 + k)) g) : ∃ v, t.group ⟨v, 0⟩ false = g := by
  obtain ⟨⟨i, hi⟩, hle, hend⟩ := hg
  obtain ⟨q, hq⟩ := hs.dvd
  have hk := hs.le
  have hpow : 2 ^ (16 + k) = 64 * 2 ^ (10 + k) := by
    rw [show 16 + k = 6 + (10 + k) by omega, Nat.pow_add]
  have hbase : base.toNat = 64 * (2 ^ (10 + k) * q) := by
    rw [hq, hpow, Nat.mul_assoc]
  have hmax : 2 ^ (10 + k) ≤ 2 ^ 19 := Nat.pow_le_pow_right (by decide) (by omega)
  -- The VSID is the number of the group.
  have hlt : i - 2 ^ (10 + k) * q < 2 ^ (10 + k) := by omega
  have hhash : (Page.hash ⟨BitVec.ofNat 24 (i - 2 ^ (10 + k) * q), 0⟩ false).toNat =
      i - 2 ^ (10 + k) * q := by
    have hindex : BitVec.setWidth 19 (0 : BitVec 16) = 0#19 := rfl
    simp only [Page.hash, hindex, BitVec.xor_zero, BitVec.toNat_setWidth, BitVec.toNat_ofNat]
    omega
  refine ⟨BitVec.ofNat 24 (i - 2 ^ (10 + k) * q), BitVec.eq_of_toNat_eq ?_⟩
  rw [group, hs.toNat_pteg ht, hhash, Nat.mod_eq_of_lt hlt]
  omega

/-- `SDR1` has the base in its upper half, and the mask in its lower one. -/
theorem Sized.sdr1_fields (hs : t.Sized base k) (ht : t.Aligned) :
    t.sdr1 &&& 0xffff0000 = base ∧ t.sdr1 &&& 0xffff = BitVec.ofNat 32 (2 ^ k - 1) := by
  have hhigh : (0xffff0000 : BitVec 32) = BitVec.allOnes 32 <<< 16 := by decide
  have hlow : (0xffff : BitVec 32) = (BitVec.allOnes 16).setWidth 32 := by decide
  have hk := hs.le
  have hmask : (BitVec.allOnes k).setWidth 32 = BitVec.ofNat 32 (2 ^ k - 1) := by
    refine BitVec.eq_of_toNat_eq ?_
    rw [BitVec.toNat_setWidth, BitVec.toNat_allOnes, BitVec.toNat_ofNat]
  rw [← hmask, ← hs.hashMask, ← hs.baseAddr]
  refine ⟨BitVec.eq_of_getLsbD_eq fun i hi => ?_, BitVec.eq_of_getLsbD_eq fun i hi => ?_⟩
  · have hbase := ht.base i
    have hbit := ht.getLsbD_sdr1_high (i := i)
    rw [hhigh, BitVec.getLsbD_and, BitVec.getLsbD_shiftLeft, BitVec.getLsbD_allOnes]
    grind
  · have hzero := ht.mask i
    have hbit := ht.getLsbD_sdr1_low (i := i)
    rw [hlow, BitVec.getLsbD_and, getLsbD_lowMask (by decide)]
    grind

/-- **The groups stay inside the table**: for a table of the optimal size, at a multiple of its
    size, the two groups of every page are different groups of the table, every group of the table
    is the primary one of some page, and `SDR1` tells the base and the size. -/
theorem groups_init {total : ℕ} (htotal : 2 ^ 23 ≤ total) {base : BitVec 32}
    (hbase : optimalSize total ∣ base.toNat) :
    let t := init base (optimalSize total)
    (∀ va v, IsGroup base (optimalSize total) (t.getPTEG (primaryHash va v)) ∧
      IsGroup base (optimalSize total) (t.getPTEG (secondaryHash (primaryHash va v))) ∧
      t.getPTEG (primaryHash va v) ≠ t.getPTEG (secondaryHash (primaryHash va v))) ∧
    (∀ g, IsGroup base (optimalSize total) g → ∃ va v, t.getPTEG (primaryHash va v) = g) ∧
    t.sdr1 &&& 0xffff0000 = base ∧
    t.sdr1 &&& 0xffff = BitVec.ofNat 32 (optimalSize total / 2 ^ 16 - 1) := by
  obtain ⟨k, hk, hsize⟩ := optimalSize_cases htotal
  rw [hsize] at hbase ⊢
  have ht : (init base (2 ^ (16 + k))).Aligned := aligned_init ..
  have hs := sized_init hk hbase
  refine ⟨fun va v => ?_, fun g hg => ?_, ?_⟩
  · rw [ht.getPTEG_primaryHash, ht.getPTEG_secondaryHash]
    exact ⟨hs.isGroup ht _, hs.isGroup ht _, ht.group_ne⟩
  · obtain ⟨v, hv⟩ := hs.exists_page ht hg
    exact ⟨0, v, (ht.getPTEG_primaryHash 0 v).trans hv⟩
  · have hdiv : 2 ^ (16 + k) / 2 ^ 16 = 2 ^ k := by
      rw [Nat.pow_add, Nat.mul_div_cancel_left _ (by decide)]
    rw [hdiv]
    exact hs.sdr1_fields ht

/-- A table for 256 MB. -/
theorem groups_init_256M : IsGroup 0x400000 (optimalSize (2 ^ 28))
    ((init 0x400000 (optimalSize (2 ^ 28))).getPTEG (primaryHash 0x12345000 5)) :=
  ((groups_init (show 2 ^ 23 ≤ 2 ^ 28 by decide) (by decide)).1 0x12345000 5).1

end HashTable

end Mmu

end DemoOs
