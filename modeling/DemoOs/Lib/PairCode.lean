import Mathlib.Algebra.BigOperators.Group.Finset.Basic
import Mathlib.Algebra.BigOperators.Ring.Finset
import Mathlib.Algebra.Order.BigOperators.Group.Finset
import Mathlib.Data.Fintype.BigOperators

/-!
# A code of pairs of parities

The places of a piece of data are told apart by lines: a place is on a line, or off it. The code
keeps two parities for each line, that of the places on it and that of the places off it. What the
parities of the data differ in from those kept, the *syndrome*, is a pair for each line as well.

A wrong bit of data changes one parity of each pair, so that the syndrome is the label of its place
(`label`); a wrong parity changes just itself (`mark`). With three lines at least, the verdict on a
syndrome (`verdict`) finds what is wrong if it is one bit (`verdict_fault`), and never takes two
wrong bits for something else (`verdict_faults`).
-/

namespace DemoOs

/-- The parities in which the data and the code differ, for each line. -/
abbrev Syndrome (κ : Type*) := κ → Bool × Bool

namespace Syndrome

variable {ι κ : Type*} {s t : Syndrome κ} {p q : κ → Bool} {k l : κ} {b c : Bool}

/-- Both have effect. -/
def add (s t : Syndrome κ) : Syndrome κ := fun k => ((s k).1 ^^ (t k).1, (s k).2 ^^ (t k).2)

/-- Nothing differs. -/
def clean : Syndrome κ := fun _ => (false, false)

/-- The syndrome of the place that is on the lines of `p`. -/
def label (p : κ → Bool) : Syndrome κ := fun k => (p k, !p k)

/-- The syndrome of a wrong parity. -/
def mark [DecidableEq κ] (k : κ) (b : Bool) : Syndrome κ :=
  fun l => if l = k then (b, !b) else (false, false)

/-- Exactly one parity of each pair differs. -/
def Valid (s : Syndrome κ) : Prop := ∀ k, (s k).1 ≠ (s k).2

@[simp] theorem add_fst : (add s t k).1 = ((s k).1 ^^ (t k).1) := rfl

@[simp] theorem add_snd : (add s t k).2 = ((s k).2 ^^ (t k).2) := rfl

@[simp] theorem label_fst : (label p k).1 = p k := rfl

@[simp] theorem label_snd : (label p k).2 = !p k := rfl

/-- No other pair has a flipped bit. -/
theorem mark_of_ne [DecidableEq κ] (h : l ≠ k) : mark k b l = (false, false) := if_neg h

@[simp] theorem mark_self [DecidableEq κ] : mark k b k = (b, !b) := if_pos rfl

/-- Of two families of pairs. -/
theorem mark_inl {κ' : Type*} [DecidableEq κ] [DecidableEq κ'] :
    mark (Sum.inl k : κ ⊕ κ') b (.inl l) = mark k b l := by
  simp [mark]

/-- And of the other one. -/
theorem mark_inr {κ' : Type*} [DecidableEq κ] [DecidableEq κ'] :
    mark (Sum.inr k : κ' ⊕ κ) b (.inr l) = mark k b l := by
  simp [mark]

/-- Syndromes are added in any order. -/
theorem add_comm (s t : Syndrome κ) : add s t = add t s := by
  funext k
  exact Prod.ext (Bool.xor_comm ..) (Bool.xor_comm ..)

/-- The clean syndrome adds nothing. -/
theorem clean_add (s : Syndrome κ) : add clean s = s := by
  funext k
  exact Prod.ext (Bool.false_xor _) (Bool.false_xor _)

/-- What is added twice is not there. -/
theorem add_add_cancel : add (add s t) t = s := by
  funext k
  exact Prod.ext (by simp) (by simp)

/-- A flipped bit of data makes all pairs differ in one bit. -/
theorem valid_label : Valid (label p) := fun k => by
  rw [label_fst, label_snd]
  cases p k <;> decide

/-- Two flipped bits of data leave the two bits of every pair equal. -/
theorem add_label_eq (k : κ) : (add (label p) (label q) k).1 = (add (label p) (label q) k).2 := by
  simp only [add_fst, add_snd, label_fst, label_snd]
  cases p k <;> cases q k <;> rfl

/-! ## Weight -/

variable [Fintype κ]

/-- The number of parities that differ. -/
def weight (s : Syndrome κ) : ℕ := ∑ k, ((s k).1.toNat + (s k).2.toNat)

@[simp] theorem weight_clean : weight (clean : Syndrome κ) = 0 := by simp [weight, clean]

/-- Only the clean syndrome has no bit. -/
theorem weight_eq_zero : weight s = 0 ↔ s = clean := by
  refine ⟨fun h => ?_, fun h => h ▸ weight_clean⟩
  funext k
  have hk := Finset.sum_eq_zero_iff.1 h k (Finset.mem_univ k)
  exact Prod.ext (Bool.toNat_eq_zero.1 (Nat.add_eq_zero_iff.1 hk).1)
    (Bool.toNat_eq_zero.1 (Nat.add_eq_zero_iff.1 hk).2)

/-- A valid one has as many as there are pairs. -/
theorem weight_valid (h : Valid s) : weight s = Fintype.card κ := by
  have hone : ∀ k, (s k).1.toNat + (s k).2.toNat = 1 := fun k => by
    have := h k
    cases h₁ : (s k).1 <;> cases h₂ : (s k).2 <;> simp_all
  simp [weight, hone]

/-- What changes twice is as it was. -/
theorem weight_add (s t : Syndrome κ) : ∃ c, weight (add s t) + 2 * c = weight s + weight t := by
  refine ⟨∑ k, (((s k).1 && (t k).1).toNat + ((s k).2 && (t k).2).toNat), ?_⟩
  rw [weight, weight, weight, Finset.mul_sum, ← Finset.sum_add_distrib, ← Finset.sum_add_distrib]
  refine Finset.sum_congr rfl fun k _ => ?_
  simp only [add_fst, add_snd]
  cases (s k).1 <;> cases (s k).2 <;> cases (t k).1 <;> cases (t k).2 <;> rfl

/-- What is added takes away no more bits than it has. -/
theorem weight_le_add : weight s ≤ weight (add s t) + weight t := by
  obtain ⟨c, hc⟩ := weight_add (add s t) t
  rw [add_add_cancel] at hc
  omega

/-- A flipped bit of data shows in every pair. -/
theorem weight_label : weight (label p) = Fintype.card κ := weight_valid valid_label

/-- A flipped bit of the code shows as one bit. -/
theorem weight_mark [DecidableEq κ] : weight (mark k b) = 1 := by
  rw [weight, Finset.sum_eq_single k]
  · cases b <;> simp
  · intro l _ hl
    simp [mark_of_ne hl]
  · exact fun h => absurd (Finset.mem_univ k) h

/-! ## Verdicts -/

/-- What is wrong: nothing, the data at a place, a parity, or more than one bit. -/
inductive Verdict (κ : Type*)
  | clean
  | data (p : κ → Bool)
  | code
  | bad

instance : DecidablePred (@Valid κ) := fun s => inferInstanceAs (Decidable (∀ k, (s k).1 ≠ (s k).2))

/-- The verdict on a syndrome. -/
def verdict (s : Syndrome κ) : Verdict κ :=
  if s = clean then .clean
  else if Valid s then .data fun k => (s k).1
  else if weight s = 1 then .code
  else .bad

/-- A wrong bit: of the data, or one of the parities of a line. -/
inductive Fault (ι κ : Type*)
  | data (i : ι)
  | code (k : κ) (b : Bool)
  deriving DecidableEq

/-- What should be found, the place `i` being on the lines of `pos i`. -/
def Fault.verdict (pos : ι → κ → Bool) : Fault ι κ → Verdict κ
  | .data i => .data (pos i)
  | .code _ _ => .code

/-- Nothing has happened. -/
theorem verdict_clean : verdict (clean : Syndrome κ) = .clean := if_pos rfl

/-- All else is bad. -/
theorem verdict_eq_bad (hvalid : ¬Valid s) (hzero : weight s ≠ 0) (hone : weight s ≠ 1) :
    verdict s = .bad := by
  rw [verdict, if_neg (mt weight_eq_zero.2 hzero), if_neg hvalid, if_neg hone]

/-- Two places, one line at least being between them. -/
theorem verdict_label_label (hcard : 0 < Fintype.card κ) (h : p ≠ q) :
    verdict (add (label p) (label q)) = .bad := by
  obtain ⟨k⟩ := Fintype.card_pos_iff.1 hcard
  refine verdict_eq_bad (fun hvalid => hvalid k (add_label_eq k)) (fun hzero => h ?_) fun hone => ?_
  · funext k
    have := congrFun (weight_eq_zero.1 hzero) k
    simpa [add, clean] using congrArg Prod.fst this
  · obtain ⟨c, hc⟩ := weight_add (label p) (label q)
    rw [hone, weight_label, weight_label] at hc
    omega

variable [DecidableEq κ] {pos : ι → κ → Bool}

/-- What a fault does to the syndrome. -/
def Fault.syndrome (pos : ι → κ → Bool) : Fault ι κ → Syndrome κ
  | .data i => label (pos i)
  | .code k b => mark k b

/-- One fault is found. -/
theorem verdict_fault (hcard : 2 ≤ Fintype.card κ) (e : Fault ι κ) :
    Syndrome.verdict (e.syndrome pos) = e.verdict pos := by
  have hclean : e.syndrome pos ≠ clean := fun h => by
    cases e with
    | data i =>
      have := weight_eq_zero.2 h
      rw [Fault.syndrome, weight_label] at this
      omega
    | code k b =>
      have := weight_eq_zero.2 h
      rw [Fault.syndrome, weight_mark] at this
      omega
  cases e with
  | data i => exact (if_neg hclean).trans (if_pos valid_label)
  | code k b =>
    have hvalid : ¬Valid (mark k b) := fun h => by
      have := weight_valid h
      rw [weight_mark] at this
      omega
    exact (if_neg hclean).trans ((if_neg hvalid).trans (if_pos weight_mark))

/-- A place and a parity: one parity too many differs, or one too few. -/
theorem verdict_label_mark (hcard : 3 ≤ Fintype.card κ) :
    verdict (add (label p) (mark k b)) = .bad := by
  obtain ⟨c, hc⟩ := weight_add (label p) (mark k b)
  have hle := weight_le_add (s := label p) (t := mark k b)
  rw [weight_label, weight_mark] at hc
  rw [weight_label, weight_mark] at hle
  refine verdict_eq_bad (fun hvalid => ?_) (by omega) (by omega)
  have := weight_valid hvalid
  omega

/-- Two parities. -/
theorem verdict_mark_mark (hcard : 3 ≤ Fintype.card κ) (h : ¬(k = l ∧ b = c)) :
    verdict (add (mark k b) (mark l c)) = .bad := by
  obtain ⟨d, hd⟩ := weight_add (mark k b) (mark l c)
  rw [weight_mark, weight_mark] at hd
  refine verdict_eq_bad (fun hvalid => ?_) (fun hzero => h ?_) (by omega)
  · have := weight_valid hvalid
    omega
  · have hk := congrFun (weight_eq_zero.1 hzero) k
    have hfst : (b ^^ (mark l c k).1) = false := by simpa [clean] using congrArg Prod.fst hk
    have hsnd : (!b ^^ (mark l c k).2) = false := by simpa [clean] using congrArg Prod.snd hk
    by_cases hkl : k = l
    · subst hkl
      rw [mark_self] at hfst
      exact ⟨rfl, by simpa using hfst⟩
    · rw [mark_of_ne hkl] at hfst hsnd
      cases b <;> simp at hfst hsnd

/-- Two faults are not taken for one, nor for none. -/
theorem verdict_faults (hcard : 3 ≤ Fintype.card κ) (hpos : Function.Injective pos)
    {e e' : Fault ι κ} (h : e ≠ e') :
    Syndrome.verdict (add (e.syndrome pos) (e'.syndrome pos)) = .bad := by
  cases e with
  | data i =>
    cases e' with
    | data j => exact verdict_label_label (by omega) fun hij => h (congrArg _ (hpos hij))
    | code k b => exact verdict_label_mark hcard
  | code k b =>
    cases e' with
    | data j => exact (congrArg Syndrome.verdict (add_comm _ _)).trans (verdict_label_mark hcard)
    | code l c => exact verdict_mark_mark hcard fun hkl => h (by rw [hkl.1, hkl.2])

end Syndrome

end DemoOs
