import DemoOs.Fs.NandEcc
import Mathlib.Data.BitVec

/-!
# Pages of flash memory

Writing and reading a page with error correction by software (`nand_write_page_swecc`,
`nand_read_page_swecc` of `nandcore.cpp`). A page is divided into steps of 256 bytes, the default
size, each of which has a code of its own, kept in the spare area at the places of the layout.

A page that is read back is as it was written, wherever at most one bit of a step is wrong; what is
corrected, and what cannot be, is counted (`readPageSwecc_faults`).
-/

namespace DemoOs

open Syndrome Ecc

/-- Of `chip->ecc`: the number of steps, and the places of the codes in the spare area, which differ
    from each other. -/
structure NandChip where
  smc : Bool
  steps : ℕ
  eccpos : ℕ → ℕ
  eccpos_inj : ∀ i j, i < 3 * steps → j < 3 * steps → eccpos i = eccpos j → i = j

/-- What is stored of a page. -/
structure NandPage where
  data : Data
  oob : Data

/-- `mtd->ecc_stats`. -/
@[ext]
structure EccStats where
  failed : ℕ
  corrected : ℕ

/-- What a correction counts as. -/
def EccStats.count (stats : EccStats) (stat : ℤ) : EccStats :=
  if stat < 0 then { stats with failed := stats.failed + 1 }
  else { stats with corrected := stats.corrected + stat.toNat }

/-- What a pointer to `buf[p]` points to. -/
def Data.view (buf : Data) (p : ℕ) : Data := fun k => buf (p + k)

/-- What is left in the buffer by writing through the pointer. -/
def Data.writeBack (buf : Data) (p : ℕ) (v : Data) : Data :=
  fun x => if x < p then buf x else v (x - p)

/-- A code in an array. -/
def Data.getEcc (a : Data) (i : ℕ) : Ecc := ⟨a i, a (i + 1), a (i + 2)⟩

def Data.setEcc (a : Data) (i : ℕ) (e : Ecc) : Data :=
  fun x => if x = i then e.b0 else if x = i + 1 then e.b1 else if x = i + 2 then e.b2 else a x

namespace NandChip

variable (chip : NandChip)

/-- `chip->ecc.total`. -/
def total : ℕ := 3 * chip.steps

/-- The first loop of either function: the codes of the steps. -/
def calculateLoop (buf ecccalc : Data) : ℕ → Data
  | 0 => ecccalc
  | s + 1 =>
      (calculateLoop buf ecccalc s).setEcc (3 * s) (nandCalculateEcc chip.smc (buf.view (256 * s)))

/-- `chip->oob_poi[eccpos[i]] = ecc_calc[i]`. -/
def putLoop (oob ecccalc : Data) : ℕ → Data
  | 0 => oob
  | i + 1 => Function.update (putLoop oob ecccalc i) (chip.eccpos i) (ecccalc i)

/-- `ecc_code[i] = chip->oob_poi[eccpos[i]]`. -/
def getLoop (oob ecccode : Data) : ℕ → Data
  | 0 => ecccode
  | i + 1 => Function.update (getLoop oob ecccode i) i (oob (chip.eccpos i))

/-- `nand_write_page_swecc`: what is written, `oob` and `ecc_calc` being the buffers of the
    driver. -/
def writePageSwecc (buf oob ecccalc : Data) : NandPage :=
  ⟨buf, chip.putLoop oob (chip.calculateLoop buf ecccalc chip.steps) chip.total⟩

/-- One step corrected. -/
def correctStep (ecccalc ecccode : Data) (s : ℕ) (r : Data × EccStats) : Data × EccStats :=
  let c := nandCorrectData chip.smc (r.1.view (256 * s)) (ecccode.getEcc (3 * s))
    (ecccalc.getEcc (3 * s))
  (r.1.writeBack (256 * s) c.2, r.2.count c.1)

/-- The last loop of `nand_read_page_swecc`. -/
def correctLoop (ecccalc ecccode : Data) (r : Data × EccStats) : ℕ → Data × EccStats
  | 0 => r
  | s + 1 => chip.correctStep ecccalc ecccode s (correctLoop ecccalc ecccode r s)

/-- `nand_read_page_swecc`: the data read, and the statistics. -/
def readPageSwecc (page : NandPage) (ecccalc ecccode : Data) (stats : EccStats) : Data × EccStats :=
  let ecccalc := chip.calculateLoop page.data ecccalc chip.steps
  let ecccode := chip.getLoop page.oob ecccode chip.total
  chip.correctLoop ecccalc ecccode (page.data, stats) chip.steps

/-! ## The steps of a page -/

/-- The code of a step, in the order of yaffs. -/
def code (oob : Data) (s : ℕ) : Ecc :=
  Ecc.order chip.smc ⟨oob (chip.eccpos (3 * s)), oob (chip.eccpos (3 * s + 1)),
    oob (chip.eccpos (3 * s + 2))⟩

/-- Putting a code at the places of a step. -/
def setCode (oob : Data) (s : ℕ) (e : Ecc) : Data :=
  let e := e.order chip.smc
  Function.update (Function.update (Function.update oob (chip.eccpos (3 * s)) e.b0)
    (chip.eccpos (3 * s + 1)) e.b1)
    (chip.eccpos (3 * s + 2)) e.b2

/-- The data of a step and its code. -/
def step (page : NandPage) (s : ℕ) : Stored :=
  ⟨fun k => if k < 256 then page.data (256 * s + k) else 0, chip.code page.oob s⟩

/-- A bit of a step is flipped, of its data or of its code. -/
def fault (page : NandPage) : ℕ × Fault Place Lines → NandPage
  | (s, .data q) => { page with data := flipBit page.data (256 * s + q.1.toNat) q.2.toNat }
  | (s, .code k b) =>
      { page with oob := chip.setCode page.oob s ((chip.code page.oob s).flipCode k b) }

variable {chip} {buf oob a ecccalc ecccode : Data} {page : NandPage} {i j k n s t : ℕ}
    {stats : EccStats}

theorem getEcc_setEcc {e : Ecc} : (a.setEcc i e).getEcc i = e := by
  simp [Data.getEcc, Data.setEcc]

theorem getEcc_setEcc_of_ne {e : Ecc} (h : s ≠ t) :
    (a.setEcc (3 * s) e).getEcc (3 * t) = a.getEcc (3 * t) := by
  simp only [Data.getEcc, Data.setEcc]
  rw [if_neg (by omega), if_neg (by omega), if_neg (by omega), if_neg (by omega), if_neg (by omega),
    if_neg (by omega), if_neg (by omega), if_neg (by omega), if_neg (by omega)]

theorem getEcc_calculateLoop (h : s < n) :
    (chip.calculateLoop buf ecccalc n).getEcc (3 * s) =
    nandCalculateEcc chip.smc (buf.view (256 * s)) := by
  induction n with
  | zero => exact absurd h (Nat.not_lt_zero s)
  | succ n ih =>
    rw [calculateLoop]
    rcases Nat.lt_succ_iff_lt_or_eq.1 h with hlt | rfl
    · rw [getEcc_setEcc_of_ne (Nat.ne_of_gt hlt), ih hlt]
    · exact getEcc_setEcc

theorem getLoop_apply (h : i < n) : chip.getLoop oob ecccode n i = oob (chip.eccpos i) := by
  induction n with
  | zero => exact absurd h (Nat.not_lt_zero i)
  | succ n ih =>
    rw [getLoop]
    rcases Nat.lt_succ_iff_lt_or_eq.1 h with hlt | rfl
    · rw [Function.update_of_ne (Nat.ne_of_lt hlt), ih hlt]
    · exact Function.update_self ..

theorem putLoop_apply (h : i < n) (hn : n ≤ 3 * chip.steps) :
    chip.putLoop oob a n (chip.eccpos i) = a i := by
  induction n with
  | zero => exact absurd h (Nat.not_lt_zero i)
  | succ n ih =>
    rw [putLoop]
    rcases Nat.lt_succ_iff_lt_or_eq.1 h with hlt | rfl
    · rw [Function.update_of_ne, ih hlt (by omega)]
      exact fun heq => Nat.ne_of_lt hlt (chip.eccpos_inj i n (by omega) hn heq)
    · exact Function.update_self ..

/-- The code that is read is that of the step. -/
theorem getEcc_getLoop (h : s < chip.steps) :
    (chip.getLoop page.oob ecccode chip.total).getEcc (3 * s) =
    (chip.step page s).ecc.order chip.smc := by
  have htotal : chip.total = 3 * chip.steps := rfl
  rw [step, code, Ecc.order_order, Data.getEcc, getLoop_apply (by omega), getLoop_apply (by omega),
    getLoop_apply (by omega)]

/-- What is written is stored with its codes. -/
theorem step_writePageSwecc (h : s < chip.steps) :
    chip.step (chip.writePageSwecc buf oob ecccalc) s =
    Stored.store fun k => if k < 256 then buf (256 * s + k) else 0 := by
  have htotal : chip.total = 3 * chip.steps := rfl
  have hcalc : (chip.calculateLoop buf ecccalc chip.steps).getEcc (3 * s) = _ :=
    getEcc_calculateLoop h
  have hput : ∀ i < 3, (chip.writePageSwecc buf oob ecccalc).oob (chip.eccpos (3 * s + i)) =
      chip.calculateLoop buf ecccalc chip.steps (3 * s + i) :=
        fun i hi => putLoop_apply (by omega) (Nat.le_refl _)
  have hcode :
      chip.code (chip.writePageSwecc buf oob ecccalc).oob s = eccCalc (buf.view (256 * s)) := by
    have h0 := hput 0 (by decide)
    rw [Nat.add_zero] at h0
    rw [code, h0, hput 1 (by decide), hput 2 (by decide)]
    change Ecc.order chip.smc ((chip.calculateLoop buf ecccalc chip.steps).getEcc (3 * s)) = _
    rw [hcalc, nandCalculateEcc_eq, Ecc.order_order]
  rw [step, hcode, Stored.store]
  refine congrArg (Stored.mk _) (congrArg Parities.ecc (parities_congr fun k hk => ?_))
  exact (if_pos hk).symm

/-- What happens to the code of a step, happens to no other. -/
theorem code_setCode {e : Ecc} (hs : s < chip.steps) : chip.code (chip.setCode oob s e) s = e := by
  have hne : ∀ i j, i < 3 → j < 3 → i ≠ j →
      chip.eccpos (3 * s + i) ≠ chip.eccpos (3 * s + j) := fun i j hi hj hij heq =>
    hij (Nat.add_left_cancel (chip.eccpos_inj _ _ (by omega) (by omega) heq))
  have h01 := hne 0 1 (by decide) (by decide) (by decide)
  have h02 := hne 0 2 (by decide) (by decide) (by decide)
  have h12 := hne 1 2 (by decide) (by decide) (by decide)
  rw [Nat.add_zero] at h01 h02
  rw [code, setCode, Function.update_of_ne h02, Function.update_of_ne h01, Function.update_self,
    Function.update_of_ne h12, Function.update_self, Function.update_self]
  exact Ecc.order_order

theorem code_setCode_of_ne {e : Ecc} (hs : s < chip.steps) (ht : t < chip.steps) (h : s ≠ t) :
    chip.code (chip.setCode oob s e) t = chip.code oob t := by
  have hne : ∀ i j, i < 3 → j < 3 → chip.eccpos (3 * t + i) ≠ chip.eccpos (3 * s + j) :=
    fun i j hi hj heq => by
    have := chip.eccpos_inj _ _ (by omega) (by omega) heq
    omega
  have hkeep : ∀ i < 3, chip.setCode oob s e (chip.eccpos (3 * t + i)) =
      oob (chip.eccpos (3 * t + i)) := fun i hi => by
    have h0 := hne i 0 hi (by decide)
    rw [Nat.add_zero] at h0
    rw [setCode, Function.update_of_ne (hne i 2 hi (by decide)),
      Function.update_of_ne (hne i 1 hi (by decide)), Function.update_of_ne h0]
  rw [code, code]
  exact congrArg _ (Ecc.ext (hkeep 0 (by decide)) (hkeep 1 (by decide)) (hkeep 2 (by decide)))

theorem step_fault (f : Fault Place Lines) (hs : s < chip.steps) :
    chip.step (chip.fault page (s, f)) s = (chip.step page s).fault f := by
  rcases f with q | ⟨k, b⟩
  · refine congrArg (Stored.mk · _) (funext fun k => ?_)
    have hq : q.1.toNat < 256 := q.1.isLt
    dsimp only [fault, step]
    by_cases hkq : k = q.1.toNat
    · rw [hkq, flipBit_self, flipBit_self, if_pos hq, if_pos hq]
    · rw [flipBit_of_ne hkq, flipBit_of_ne (by omega)]
  · exact congrArg (Stored.mk _) (code_setCode hs)

theorem step_fault_of_ne (f : Fault Place Lines) (hs : s < chip.steps) (ht : t < chip.steps)
    (h : s ≠ t) :
    chip.step (chip.fault page (s, f)) t = chip.step page t := by
  rcases f with q | ⟨k, b⟩
  · refine congrArg (Stored.mk · _) (funext fun k => ?_)
    have hq : q.1.toNat < 256 := q.1.isLt
    dsimp only [fault]
    by_cases hk : k < 256
    · rw [if_pos hk, if_pos hk, flipBit_of_ne (by omega)]
    · rw [if_neg hk, if_neg hk]
  · exact congrArg (Stored.mk _) (code_setCode_of_ne hs ht h)

/-- The faults of a page, step by step. -/
theorem step_foldl_fault (faults : List (ℕ × Fault Place Lines))
    (hall : ∀ f ∈ faults, f.1 < chip.steps)
    (hs : s < chip.steps) : chip.step (faults.foldl chip.fault page) s =
      ((faults.filter fun f => f.1 = s).map Prod.snd).foldl Stored.fault (chip.step page s) := by
  induction faults generalizing page with
  | nil => rfl
  | cons f faults ih =>
    rw [List.foldl_cons, ih fun g hg => hall g (List.mem_cons_of_mem _ hg)]
    obtain ⟨t, f⟩ := f
    by_cases ht : t = s
    · rw [List.filter_cons_of_pos (by simpa using ht), List.map_cons, List.foldl_cons, ht,
        step_fault f hs]
    · rw [List.filter_cons_of_neg (by simpa using ht),
        step_fault_of_ne f (hall (t, f) List.mem_cons_self) hs ht]

/-! ## Reading a page back -/

/-- A correction, once it is known what the codes are, leaves the data alone or flips one bit of the
    256 bytes. -/
theorem eccCorrect_data (readEcc testEcc : Ecc) : ∃ result ecc,
    (∀ data, eccCorrect data readEcc testEcc = ⟨result, data, ecc⟩) ∨
      ∃ i j, i < 256 ∧
        ∀ data, eccCorrect data readEcc testEcc = ⟨result, flipBit data i j, ecc⟩ := by
  unfold eccCorrect
  dsimp only
  split_ifs
  · exact ⟨_, _, .inl fun _ => rfl⟩
  · exact ⟨_, _, .inr ⟨_, _, BitVec.isLt _, fun _ => rfl⟩⟩
  · exact ⟨_, _, .inl fun _ => rfl⟩
  · exact ⟨_, _, .inl fun _ => rfl⟩

/-- One step is corrected as what is stored of it is. -/
theorem correctStep_spec {r : Data × EccStats}
    (hcalc : ecccalc.getEcc (3 * s) = nandCalculateEcc chip.smc (page.data.view (256 * s)))
    (hcode : ecccode.getEcc (3 * s) = (chip.step page s).ecc.order chip.smc)
    (hdata : ∀ k < 256, r.1 (256 * s + k) = page.data (256 * s + k)) :
    (∀ k < 256, (chip.correctStep ecccalc ecccode s r).1 (256 * s + k) =
      (chip.step page s).correct.data k) ∧
      (∀ x, x < 256 * s ∨ 256 * s + 256 ≤ x → (chip.correctStep ecccalc ecccode s r).1 x = r.1 x) ∧
        (chip.correctStep ecccalc ecccode s r).2 = r.2.count (chip.step page s).correct.result := by
  have htest : eccCalc (page.data.view (256 * s)) = eccCalc (chip.step page s).data :=
    congrArg Parities.ecc (parities_congr fun k hk => (if_pos hk).symm)
  rw [correctStep]
  dsimp only
  rw [hcalc, hcode, nandCalculateEcc_eq, nandCorrectData_eq, Stored.correct, htest]
  dsimp only
  -- An uncorrectable step is counted as failed, whatever `-1` is replaced by.
  have hsigned : ∀ result : ℤ,
      r.2.count (if result = -1 then badMsg else result) = r.2.count result := fun result => by
    split_ifs with hresult
    · rw [hresult]
      rfl
    · rfl
  -- The step is left as it is, or one bit of its data is flipped.
  obtain ⟨result, ecc, h | ⟨i, j, hi, h⟩⟩ :=
    eccCorrect_data (chip.step page s).ecc (eccCalc (chip.step page s).data)
  · rw [h, h]
    dsimp only
    refine ⟨fun k hk => ?_, fun x hx => ?_, hsigned result⟩
    · rw [Data.writeBack, if_neg (by omega), Nat.add_sub_cancel_left]
      exact (hdata k hk).trans (if_pos hk).symm
    · rw [Data.writeBack]
      split_ifs
      · rfl
      · exact congrArg r.1 (by omega)
  · rw [h, h]
    dsimp only
    refine ⟨fun k hk => ?_, fun x hx => ?_, hsigned result⟩
    · have hview : ∀ k < 256, r.1.view (256 * s) k = (chip.step page s).data k := fun k hk =>
        (hdata k hk).trans (if_pos hk).symm
      rw [Data.writeBack, if_neg (by omega), Nat.add_sub_cancel_left]
      by_cases hki : k = i
      · rw [hki, flipBit_self, flipBit_self, hview i hi]
      · rw [flipBit_of_ne hki, flipBit_of_ne hki, hview k hk]
    · rw [Data.writeBack]
      split_ifs
      · rfl
      · rw [flipBit_of_ne (by omega)]
        exact congrArg r.1 (by omega)

/-- The steps before `n` are corrected, those from there on are as they were read. -/
theorem correctLoop_spec (page : NandPage) (ecccalc ecccode : Data) (stats : EccStats)
    (hn : n ≤ chip.steps) :
    let r := chip.correctLoop (chip.calculateLoop page.data ecccalc chip.steps)
      (chip.getLoop page.oob ecccode chip.total) (page.data, stats) n
    (∀ s < n, ∀ k < 256, r.1 (256 * s + k) = (chip.step page s).correct.data k) ∧
      (∀ x, 256 * n ≤ x → r.1 x = page.data x) ∧
        r.2 = (List.range n).foldl
          (fun stats s => stats.count (chip.step page s).correct.result) stats := by
  induction n with
  | zero => exact ⟨fun s hs => absurd hs (Nat.not_lt_zero s), fun _ _ => rfl, rfl⟩
  | succ n ih =>
    obtain ⟨hbefore, hafter, hstats⟩ := ih (Nat.le_of_succ_le hn)
    obtain ⟨hself, hothers, hcount⟩ :=
      correctStep_spec (getEcc_calculateLoop hn) (getEcc_getLoop hn)
      (fun k _ => hafter (256 * n + k) (Nat.le_add_right ..))
    refine ⟨fun s hs k hk => ?_, fun x hx => ?_, ?_⟩
    · rcases Nat.lt_succ_iff_lt_or_eq.1 hs with hlt | rfl
      · exact (hothers _ (.inl (by omega))).trans (hbefore s hlt k hk)
      · exact hself k hk
    · exact (hothers x (.inr (by omega))).trans (hafter x (by omega))
    · rw [List.range_succ, List.foldl_append, ← hstats]
      exact hcount

/-- The corrections of some steps, each of which has at most two faults. -/
theorem foldl_count (stats : EccStats) (result : ℕ → ℤ) (faults : ℕ → ℕ) {l : List ℕ}
    (h : ∀ s ∈ l, (faults s = 0 ∧ result s = 0) ∨ (faults s = 1 ∧ result s = 1) ∨
      (faults s = 2 ∧ result s = -1)) :
    l.foldl (fun stats s => stats.count (result s)) stats =
      ⟨stats.failed + l.countP (faults · = 2), stats.corrected + l.countP (faults · = 1)⟩ := by
  induction l generalizing stats with
  | nil => rfl
  | cons s l ih =>
    rw [List.foldl_cons, ih _ fun t ht => h t (List.mem_cons_of_mem _ ht), List.countP_cons,
      List.countP_cons]
    rcases h s List.mem_cons_self with ⟨hf, hr⟩ | ⟨hf, hr⟩ | ⟨hf, hr⟩ <;> rw [hf, hr]
    · rfl
    · exact EccStats.ext rfl (by simp [EccStats.count]; omega)
    · exact EccStats.ext (by simp [EccStats.count]; omega) rfl

/-- Data with at most two bits wrong, them or their code. -/
theorem Stored.correct_foldl (data : Data) {l : List (Fault Place Lines)} (hnodup : l.Nodup)
    (h : l.length ≤ 2) :
    (l.length ≤ 1 → (l.foldl Stored.fault (.store data)).correct.data = data) ∧
      ((l.length = 0 ∧ (l.foldl Stored.fault (.store data)).correct.result = 0) ∨
        (l.length = 1 ∧ (l.foldl Stored.fault (.store data)).correct.result = 1) ∨
          (l.length = 2 ∧ (l.foldl Stored.fault (.store data)).correct.result = -1)) := by
  rcases l with _ | ⟨f, _ | ⟨f', _ | ⟨f'', l⟩⟩⟩
  · rw [List.foldl_nil, Stored.correct_store]
    exact ⟨fun _ => rfl, .inl ⟨rfl, rfl⟩⟩
  · rw [List.foldl_cons, List.foldl_nil, Stored.correct_fault]
    exact ⟨fun _ => rfl, .inr (.inl ⟨rfl, rfl⟩)⟩
  · have hne : f ≠ f' := fun heq => (List.nodup_cons.1 hnodup).1 (heq ▸ List.mem_singleton_self f')
    rw [List.foldl_cons, List.foldl_cons, List.foldl_nil, Stored.correct_faults hne]
    exact ⟨fun h => absurd h (by simp), .inr (.inr ⟨rfl, rfl⟩)⟩
  · simp at h

/-- A page that is read back, with at most two bits of each step wrong. -/
theorem readPageSwecc_faults (chip : NandChip) (data oob ecccalc ecccalc' ecccode : Data)
    (stats : EccStats)
    (faults : List (ℕ × Fault Place Lines)) (hnodup : faults.Nodup)
    (hsteps : ∀ f ∈ faults, f.1 < chip.steps)
    (htwo : ∀ s, faults.countP (·.1 = s) ≤ 2) :
    let page := faults.foldl chip.fault (chip.writePageSwecc data oob ecccalc)
    let r := chip.readPageSwecc page ecccalc' ecccode stats
    (∀ s < chip.steps, faults.countP (·.1 = s) ≤ 1 →
      ∀ k < 256, r.1 (256 * s + k) = data (256 * s + k)) ∧
      r.2.failed =
        stats.failed + (List.range chip.steps).countP (fun s => faults.countP (·.1 = s) = 2) ∧
        r.2.corrected = stats.corrected + (List.range chip.steps).countP
          (fun s => faults.countP (·.1 = s) = 1) := by
  intro page r
  -- The faults of one step are at most two, and different.
  have hlength : ∀ s, ((faults.filter fun f => f.1 = s).map Prod.snd).length =
      faults.countP (·.1 = s) := fun s => by
    rw [List.length_map, List.countP_eq_length_filter]
  have hdistinct : ∀ s, ((faults.filter fun f => f.1 = s).map Prod.snd).Nodup := fun s => by
    refine List.Nodup.map_on (fun f hf g hg heq => ?_) (hnodup.filter _)
    have hf' : f.1 = s := by simpa using (List.mem_filter.1 hf).2
    have hg' : g.1 = s := by simpa using (List.mem_filter.1 hg).2
    exact Prod.ext (hf'.trans hg'.symm) heq
  -- So each step is a stored code word with its own faults.
  have hstep : ∀ s < chip.steps,
      chip.step page s = ((faults.filter fun f => f.1 = s).map Prod.snd).foldl Stored.fault
      (.store fun k => if k < 256 then data (256 * s + k) else 0) := fun s hs => by
    rw [step_foldl_fault faults hsteps hs, step_writePageSwecc hs]
  have hcorrect :=
    fun s => Stored.correct_foldl (fun k => if k < 256 then data (256 * s + k) else 0) (hdistinct s)
    ((hlength s).le.trans (htwo s))
  obtain ⟨hbytes, -, hcount⟩ :=
    correctLoop_spec page ecccalc' ecccode stats (Nat.le_refl chip.steps)
  refine ⟨fun s hs hone k hk => ?_, ?_⟩
  · have hrestored := (hcorrect s).1 ((hlength s).le.trans hone)
    refine (hbytes s hs k hk).trans ?_
    rw [hstep s hs, hrestored]
    exact if_pos hk
  · have hresults := foldl_count stats (l := List.range chip.steps)
      (fun s => (chip.step page s).correct.result) (fun s => faults.countP (·.1 = s)) fun s hs => by
        have := (hcorrect s).2
        rwa [hlength, ← hstep s (List.mem_range.1 hs)] at this
    exact ⟨congrArg EccStats.failed (hcount.trans hresults),
      congrArg EccStats.corrected (hcount.trans hresults)⟩

/-- `nand_oob_64`, for pages of 2048 bytes. -/
def oob64 : NandChip where
  smc := false
  steps := 8
  eccpos i := 40 + i
  eccpos_inj _ _ _ _ h := Nat.add_left_cancel h

theorem readPageSwecc_oob64 :
    (oob64.readPageSwecc ([(0, .data (5, 3)), (7, .code (.inl 2) true)].foldl oob64.fault
      (oob64.writePageSwecc (BitVec.ofNat 8) 0 0)) 0 0 ⟨0, 0⟩).2.corrected = 2 :=
  (readPageSwecc_faults oob64 (BitVec.ofNat 8) 0 0 0 0 ⟨0, 0⟩ [(0, .data (5, 3)),
    (7, .code (.inl 2) true)] (by decide)
    (by decide) fun s => List.countP_le_length).2.2

end NandChip

end DemoOs
