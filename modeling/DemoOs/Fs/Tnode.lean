import DemoOs.Fs.TnodeMap
import DemoOs.Lib.Radix
import Mathlib.Tactic.Ring

/-!
# The tnodes of a file

Where the chunks of a file are is kept in a tree (`yaffs_find_tnode_0`, `yaffs_add_find_tnode_0` of
`yaffs_guts.c`), with the entries of 16 consecutive chunks in each tnode of level 0, and up to 8
tnodes below each tnode of another level. The tree is made higher when a chunk comes that is beyond
it. What is not there is as an entry of zero.

* `requiredDepth_le_iff`: how high a tree must be;
* `addFindTnode0_spec`: making room for a chunk leaves all entries as they are, whether there is
  memory for it or not, and a tnode that is passed takes the place of the one that was there.
-/

namespace DemoOs

/-- `YAFFS_TNODES_MAX_LEVEL`. -/
def tnodesMaxLevel : ℕ := 8

/-- `YAFFS_MAX_CHUNK_ID`. -/
def maxChunkId : ℕ := 1 <<< 28 - 1

/-- The tnodes of a level. -/
abbrev Tnode (l : ℕ) := Radix (Fin 8) TnodeMap l

/-- Of `struct yaffs_file_var`: `top_level` and `top`. -/
structure FileVar where
  topLevel : ℕ
  top : Tnode topLevel

/-- Of the device: `n_tnodes`, and which of the requests for a tnode that are still to come will be
    granted. -/
structure TnodePool where
  nTnodes : ℤ
  granted : ℕ → Bool

namespace Tnode

/-- `memset(tn, 0, tnode_size)`. -/
def zero : (l : ℕ) → Tnode l
  | 0 => fun _ => 0
  | _ + 1 => Radix.bare

/-- `yaffs_get_tnode`. -/
def get (l : ℕ) (p : TnodePool) : Option (Tnode l) × TnodePool :=
  if p.granted 0 then (some (zero l), ⟨p.nTnodes + 1, fun k => p.granted (k + 1)⟩)
  else (none, ⟨p.nTnodes, fun k => p.granted (k + 1)⟩)

/-- `yaffs_free_tnode`. -/
def free (p : TnodePool) : TnodePool := { p with nTnodes := p.nTnodes - 1 }

/-- Which tnode below one of level `l + 1` is that of a chunk. -/
def internalIndex (chunkId l : ℕ) : Fin 8 :=
  ⟨chunkId >>> (4 + l * 3) &&& 7, Nat.lt_succ_of_le Nat.and_le_right⟩

/-- `internal[0]` is what chunks are below that a lower tree would hold as well. -/
def first : Fin 8 := ⟨0, Nat.succ_pos 7⟩

/-- The loop that finds `required_depth`. -/
def requiredDepth (i : ℕ) : ℕ := if i = 0 then 0 else requiredDepth (i >>> 3) + 1
decreasing_by
  rw [Nat.shiftRight_eq_div_pow]
  omega

end Tnode

open Tnode

namespace FileVar

/-- The tnodes of a file that `yaffs_new_obj` has made. -/
def fresh : FileVar := ⟨0, Tnode.zero 0⟩

/-- `yaffs_find_tnode_0`. -/
def findTnode0 (f : FileVar) (chunkId : ℕ) : Option TnodeMap :=
  if tnodesMaxLevel < f.topLevel then none
  else if maxChunkId < chunkId then none
  else if f.topLevel < requiredDepth (chunkId >>> 4) then none
  else Radix.leaf (internalIndex chunkId) f.topLevel f.top

/-- The loop of `yaffs_add_find_tnode_0` that makes the tree higher, as often as is left to do. -/
def grow : ℕ → FileVar → TnodePool → Bool × FileVar × TnodePool
  | 0, f, p => (true, f, p)
  | n + 1, f, p =>
    match Tnode.get (f.topLevel + 1) p with
    | (some tn, p) => grow n ⟨f.topLevel + 1, tn.setChild first (some f.top)⟩ p
    | (none, p) => (false, f, p)

/-- The rest of `yaffs_add_find_tnode_0`, from a tnode of some level downwards. -/
def addFindIn (dev : TnodeDev) (chunkId : ℕ) (passedTn : Option TnodeMap) :
    (l : ℕ) → Tnode l → TnodePool → Bool × Tnode l × TnodePool
  | 0, tn, p =>
    match passedTn with
    | some map => (true, fun i => if i < dev.tnodeWidth * 16 / 8 / 4 then map i else tn i, free p)
    | none => (true, tn, p)
  | 1, tn, p =>
    let x := internalIndex chunkId 0
    match passedTn, tn.child x with
    | some map, some _ => (true, tn.setChild x (some map), free p)
    | some map, none => (true, tn.setChild x (some map), p)
    | none, some _ => (true, tn, p)
    | none, none =>
      match Tnode.get 0 p with
      | (some c, p) => (true, tn.setChild x (some c), p)
      | (none, p) => (false, tn, p)
  | l + 2, tn, p =>
    let x := internalIndex chunkId (l + 1)
    match tn.child x with
    | some c =>
      let r := addFindIn dev chunkId passedTn (l + 1) c p
      (r.1, tn.setChild x (some r.2.1), r.2.2)
    | none =>
      match Tnode.get (l + 1) p with
      | (some c, p) =>
        let r := addFindIn dev chunkId passedTn (l + 1) c p
        (r.1, tn.setChild x (some r.2.1), r.2.2)
      | (none, p) => (false, tn, p)

/-- `yaffs_add_find_tnode_0`: whether there is a tnode for the chunk. -/
def addFindTnode0 (dev : TnodeDev) (f : FileVar) (chunkId : ℕ) (passedTn : Option TnodeMap)
    (p : TnodePool) :
    Bool × FileVar × TnodePool :=
  if tnodesMaxLevel < f.topLevel then (false, f, p)
  else if maxChunkId < chunkId then (false, f, p)
  else
    match f.grow (requiredDepth (chunkId >>> 4) - f.topLevel) p with
    | (false, f, p) => (false, f, p)
    | (true, f, p) =>
      let r := addFindIn dev chunkId passedTn f.topLevel f.top p
      (r.1, ⟨f.topLevel, r.2.1⟩, r.2.2)

/-- `yaffs_load_tnode_0`, on the tnode of a chunk. -/
def load (dev : TnodeDev) (f : FileVar) (chunkId : ℕ) (val : BitVec 32) : FileVar :=
  ⟨f.topLevel, f.top.modify (internalIndex chunkId) (dev.loadTnode0 · chunkId val) f.topLevel⟩

end FileVar

/-! ## Paths -/

namespace Tnode

/-- The digits of a place, in base 8 above the lowest 16. -/
theorem internalIndex_val (chunkId l : ℕ) :
    (internalIndex chunkId l).val = chunkId / 16 / 8 ^ l % 8 := by
  have hpow : 2 ^ (4 + l * 3) = 16 * 8 ^ l := by
    rw [pow_add, Nat.mul_comm l, pow_mul]
    norm_num
  have hand : ∀ x, x &&& 7 = x % 8 := fun x => Nat.and_two_pow_sub_one_eq_mod x 3
  rw [internalIndex]
  dsimp only
  rw [hand, Nat.shiftRight_eq_div_pow, hpow, Nat.div_div_eq_div_mul]

/-- As many levels are required as the place has digits. -/
theorem requiredDepth_le_iff {i l : ℕ} : requiredDepth i ≤ l ↔ i < 8 ^ l := by
  induction l generalizing i with
  | zero =>
    rw [requiredDepth, pow_zero]
    split_ifs with hzero <;> omega
  | succ l ih =>
    rw [requiredDepth]
    split_ifs with hzero
    · exact iff_of_true (Nat.zero_le _) (hzero ▸ Nat.pow_pos (by decide))
    · have height : 2 ^ 3 = 8 := by norm_num
      rw [Nat.add_le_add_iff_right, ih, Nat.shiftRight_eq_div_pow, height,
        Nat.div_lt_iff_lt_mul (by decide), pow_succ]

/-- Chunks that one path leads to share a tnode of level 0. -/
theorem div_eq_of_internalIndex {i j l : ℕ} (hi : i / 16 < 8 ^ l) (hj : j / 16 < 8 ^ l)
    (h : ∀ k < l, internalIndex j k = internalIndex i k) : j / 16 = i / 16 := by
  by_contra hne
  obtain ⟨k, hk, hdigit⟩ := exists_digit_ne hj hi hne
  exact hdigit (by rw [← internalIndex_val, ← internalIndex_val, h k hk])

/-- The first child of the top is for the places that need no top. -/
theorem internalIndex_eq_first_iff {i l : ℕ} (hi : i / 16 < 8 ^ (l + 1)) :
    internalIndex i l = first ↔ i / 16 < 8 ^ l := by
  have hdiv : i / 16 / 8 ^ l < 8 := Nat.div_lt_of_lt_mul (by rwa [← pow_succ])
  rw [Fin.ext_iff, internalIndex_val, Nat.mod_eq_of_lt hdiv]
  exact Nat.div_eq_zero_iff_lt (Nat.pow_pos (by decide))

/-! ## Entries -/

variable (dev : TnodeDev)

/-- The entry of a chunk below a tnode. -/
def entryIn (chunkId l : ℕ) (tn : Tnode l) : BitVec 32 :=
  ((Radix.leaf (internalIndex chunkId) l tn).map (dev.getGroupBase · chunkId)).getD 0

variable {dev} {l j : ℕ}

/-- An entry is found by the path of its digits. -/
theorem entryIn_succ (tn : Tnode (l + 1)) :
    entryIn dev j (l + 1) tn = ((tn.child (internalIndex j l)).map (entryIn dev j l)).getD 0 := by
  rw [entryIn, Radix.leaf]
  cases tn.child (internalIndex j l) with
  | none => rfl
  | some c => rfl

@[simp] theorem entryIn_zero : entryIn dev j l (zero l) = 0 := by
  cases l with
  | zero => exact TnodeDev.getGroupBase_zeros j
  | succ l => rfl

/-- A new tnode is one tnode. -/
theorem nodes_zero : Radix.nodes l (zero l) = 1 := by
  cases l with
  | zero => rfl
  | succ l =>
    have hnone : ∀ i, ((Radix.child (zero (l + 1)) i).map (Radix.nodes l)).getD 0 = 0 :=
      fun _ => rfl
    rw [Radix.nodes, Finset.sum_congr rfl fun i _ => hnone i, Finset.sum_const_zero, Nat.add_zero]

/-- Another tnode in the place of one with the same entries. -/
theorem entryIn_setChild {tn : Tnode (l + 1)} {x : Fin 8} {c : Tnode l}
    (h : ∀ j, internalIndex j l = x → entryIn dev j l c = entryIn dev j (l + 1) tn) (j : ℕ) :
    entryIn dev j (l + 1) (tn.setChild x (some c)) = entryIn dev j (l + 1) tn := by
  by_cases hx : internalIndex j l = x
  · rw [entryIn_succ, hx, Radix.child_setChild_self, ← h j hx]
    rfl
  · rw [entryIn_succ, entryIn_succ, Radix.child_setChild_of_ne hx]

end Tnode

namespace FileVar

/-- The entry of a chunk. -/
def entry (dev : TnodeDev) (f : FileVar) (chunkId : ℕ) : BitVec 32 :=
  if chunkId / 16 < 8 ^ f.topLevel then entryIn dev chunkId f.topLevel f.top else 0

/-- The tnodes that lead to the first chunk are there. -/
def Leftmost (f : FileVar) : Prop := (Radix.leaf (fun _ => first) f.topLevel f.top).isSome

/-- The number of tnodes. -/
def nodes (f : FileVar) : ℕ := Radix.nodes f.topLevel f.top

/-- What no function changes that makes room for a chunk or gives room back: the entries, the tnodes
    that are nobody's, and that the leftmost tnodes are there. -/
structure Kept (dev : TnodeDev) (f : FileVar) (p : TnodePool) (f' : FileVar)
    (p' : TnodePool) : Prop where
  entry : ∀ j, f'.entry dev j = f.entry dev j
  nTnodes : p'.nTnodes + f.nodes = p.nTnodes + f'.nodes
  leftmost : f.Leftmost → f'.Leftmost

variable {dev : TnodeDev} {f f' f'' : FileVar} {p p' p'' : TnodePool} {chunkId j l n : ℕ}
    {val : BitVec 32}

/-- Nothing has happened. -/
theorem Kept.refl : Kept dev f p f p := ⟨fun _ => rfl, rfl, id⟩

/-- One after the other. -/
theorem Kept.trans (h : Kept dev f p f' p') (h' : Kept dev f' p' f'' p'') :
    Kept dev f p f'' p'' where
  entry j := (h'.entry j).trans (h.entry j)
  nTnodes := by have := h.nTnodes; have := h'.nTnodes; omega
  leftmost hf := h'.leftmost (h.leftmost hf)

/-- What `yaffs_find_tnode_0` finds. -/
theorem findTnode0_eq (hlevel : f.topLevel ≤ tnodesMaxLevel) (hid : chunkId ≤ maxChunkId) :
    f.findTnode0 chunkId =
    if chunkId / 16 < 8 ^ f.topLevel then Radix.leaf (internalIndex chunkId) f.topLevel f.top
      else none := by
  have hdepth : requiredDepth (chunkId >>> 4) ≤ f.topLevel ↔ chunkId / 16 < 8 ^ f.topLevel := by
    rw [requiredDepth_le_iff, Nat.shiftRight_eq_div_pow]
  rw [findTnode0, if_neg (Nat.not_lt.2 hlevel), if_neg (Nat.not_lt.2 hid)]
  by_cases hlow : chunkId / 16 < 8 ^ f.topLevel
  · rw [if_pos hlow, if_neg (Nat.not_lt.2 (hdepth.2 hlow))]
  · rw [if_neg hlow, if_pos (Nat.lt_of_not_le fun h => hlow (hdepth.1 h))]

/-- A new file has no entries. -/
theorem entry_fresh : fresh.entry dev j = 0 := by
  rw [entry]
  split_ifs
  · exact entryIn_zero
  · rfl

/-- The entry that is found is that of the place. -/
theorem getD_findTnode0 (hlevel : f.topLevel ≤ tnodesMaxLevel) (hid : chunkId ≤ maxChunkId) :
    ((f.findTnode0 chunkId).map (dev.getGroupBase · chunkId)).getD 0 = f.entry dev chunkId := by
  rw [findTnode0_eq hlevel hid, entry]
  split_ifs <;> rfl

/-! ## Making the tree higher -/

/-- A tnode above the top keeps all entries. -/
theorem kept_raise {granted : ℕ → Bool} : Kept dev f p
    ⟨f.topLevel + 1, (zero (f.topLevel + 1)).setChild first (some f.top)⟩ ⟨p.nTnodes + 1,
      granted⟩ where
  entry j := by
    rw [entry, entry]
    dsimp only
    by_cases hj : j / 16 < 8 ^ (f.topLevel + 1)
    · have hzero := internalIndex_eq_first_iff hj
      rw [if_pos hj, entryIn_succ]
      -- What was there is below the first child of the new top, which has no other.
      by_cases hlow : j / 16 < 8 ^ f.topLevel
      · rw [if_pos hlow, hzero.2 hlow, Radix.child_setChild_self]
        rfl
      · rw [if_neg hlow, Radix.child_setChild_of_ne fun h => hlow (hzero.1 h)]
        rfl
    · rw [if_neg hj, if_neg fun hlow =>
        hj (lt_of_lt_of_le hlow (Nat.pow_le_pow_right (by decide) (Nat.le_succ _)))]
  nTnodes := by
    have h := Radix.nodes_setChild (zero (f.topLevel + 1)) first (some f.top)
    have hone : Radix.nodes (f.topLevel + 1) (zero (f.topLevel + 1)) = 1 := nodes_zero
    rw [hone] at h
    have hnone :
        ((Radix.child (zero (f.topLevel + 1)) first).map (Radix.nodes f.topLevel)).getD 0 = 0 := rfl
    rw [hnone, Option.map_some, Option.getD_some] at h
    rw [nodes, nodes]
    dsimp only
    omega
  leftmost h := by
    rw [Leftmost] at h ⊢
    dsimp only
    rw [Radix.leaf, Radix.child_setChild_self]
    exact h

variable (dev) in
/-- As many tnodes are put above the top as memory is granted for, and all entries are kept. -/
theorem grow_spec (n : ℕ) (f : FileVar) (p : TnodePool) :
    Kept dev f p (f.grow n p).2.1 (f.grow n p).2.2 ∧ (f.grow n p).2.1.topLevel ≤ f.topLevel + n ∧
      f.topLevel ≤ (f.grow n p).2.1.topLevel ∧
      ((f.grow n p).1 = true → (f.grow n p).2.1.topLevel = f.topLevel + n) ∧
      ((∀ k, p.granted k = true) → (f.grow n p).1 = true ∧
      ∀ k, (f.grow n p).2.2.granted k = true) := by
  induction n generalizing f p with
  | zero => exact ⟨.refl, le_rfl, le_rfl, fun _ => rfl, fun h => ⟨rfl, h⟩⟩
  | succ n ih =>
    rw [grow, Tnode.get]
    by_cases hgranted : p.granted 0 = true
    · rw [if_pos hgranted]
      obtain ⟨hkept, hle, hge, hlevel, hall⟩ :=
        ih ⟨f.topLevel + 1, (zero (f.topLevel + 1)).setChild first (some f.top)⟩
        ⟨p.nTnodes + 1, fun k => p.granted (k + 1)⟩
      dsimp only at hle hge hlevel hall ⊢
      exact ⟨kept_raise.trans hkept, by omega, by omega, fun h => by rw [hlevel h]; omega,
        fun h => hall fun k => h (k + 1)⟩
    · rw [if_neg hgranted]
      exact ⟨⟨fun _ => rfl, rfl, id⟩, Nat.le_add_right _ _, le_rfl,
        fun h => absurd h Bool.false_ne_true, fun h => absurd (h 0) hgranted⟩

/-! ## Making room for a chunk -/

/-- What the way down to a chunk, `r`, makes of a tnode. -/
structure Descended (dev : TnodeDev) (chunkId : ℕ) {l : ℕ} (tn : Tnode l) (p : TnodePool)
    (r : Bool × Tnode l × TnodePool) : Prop where
  entry : ∀ j, entryIn dev j l r.2.1 = entryIn dev j l tn
  nTnodes : r.2.2.nTnodes + Radix.nodes l tn = p.nTnodes + Radix.nodes l r.2.1
  leftmost : (Radix.leaf (fun _ => first) l tn).isSome →
    (Radix.leaf (fun _ => first) l r.2.1).isSome
  found : r.1 = true → (Radix.leaf (internalIndex chunkId) l r.2.1).isSome
  granted : (∀ k, p.granted k = true) → r.1 = true ∧ ∀ k, r.2.2.granted k = true

/-- One tnode further up: `c` is the tnode below, or a new one. -/
theorem Descended.setChild {tn : Tnode (l + 1)} {c : Tnode l} {r : Bool × Tnode l × TnodePool}
    (h : Descended dev chunkId c p' r)
    (hentry : ∀ j, internalIndex j l = internalIndex chunkId l →
      entryIn dev j l c = entryIn dev j (l + 1) tn)
    (hnodes : p'.nTnodes + ((tn.child (internalIndex chunkId l)).map (Radix.nodes l)).getD 0 =
      p.nTnodes + Radix.nodes l c)
    (hleft : ∀ c', tn.child (internalIndex chunkId l) = some c' → c' = c)
    (hgranted : (∀ k, p.granted k = true) → ∀ k, p'.granted k = true) :
    Descended dev chunkId tn p (r.1, tn.setChild (internalIndex chunkId l) (some r.2.1),
      r.2.2) where
  entry := entryIn_setChild fun j hj => (h.entry j).trans (hentry j hj)
  nTnodes := by
    have hset := Radix.nodes_setChild tn (internalIndex chunkId l) (some r.2.1)
    have hdown := h.nTnodes
    rw [Option.map_some, Option.getD_some] at hset
    dsimp only
    omega
  leftmost hsome := by
    -- The leftmost path goes through the child only if it is the first one.
    by_cases hzero : first = internalIndex chunkId l
    · rw [Radix.leaf, ← hzero, Radix.child_setChild_self]
      refine h.leftmost ?_
      rw [Radix.leaf] at hsome
      cases hchild : tn.child first with
      | none =>
        rw [hchild] at hsome
        exact absurd hsome Bool.false_ne_true
      | some c' =>
        rw [hchild] at hsome
        exact hleft c' (by rwa [← hzero]) ▸ hsome
    · rw [Radix.leaf] at hsome ⊢
      rwa [Radix.child_setChild_of_ne hzero]
  found hok := by
    rw [Radix.leaf, Radix.child_setChild_self]
    exact h.found hok
  granted hall := h.granted (hgranted hall)

/-- The tnode of level 0 is there already. -/
theorem Descended.refl {tn : Tnode l} (h : (Radix.leaf (internalIndex chunkId) l tn).isSome) :
    Descended dev chunkId tn p (true, tn, p) :=
  ⟨fun _ => rfl, rfl, id, fun _ => h, fun hall => ⟨rfl, hall⟩⟩

/-- The memory is refused. -/
theorem Descended.refused {tn : Tnode l} {granted : ℕ → Bool} (h : ¬∀ k, p.granted k = true) :
    Descended dev chunkId tn p (false, tn, ⟨p.nTnodes, granted⟩) :=
  ⟨fun _ => rfl, rfl, id, fun hok => absurd hok Bool.false_ne_true, fun hall => absurd hall h⟩

variable (dev chunkId) in
/-- Below the top, the tnodes on the path that are missing are added. -/
theorem addFindIn_spec (l : ℕ) (tn : Tnode l) (p : TnodePool) :
    Descended dev chunkId tn p (addFindIn dev chunkId none l tn p) := by
  -- By induction on the levels: the walk goes down one child, which it makes if it is missing.
  induction l using Nat.strong_induction_on generalizing p with
  | _ l ih =>
    match l with
    | 0 => exact .refl rfl
    | 1 =>
      unfold addFindIn
      dsimp only
      cases hchild : tn.child (internalIndex chunkId 0) with
      | some c => exact .refl (by rw [Radix.leaf, hchild]; rfl)
      | none =>
        rw [Tnode.get]
        by_cases hgranted : p.granted 0 = true
        · rw [if_pos hgranted]
          have hnew : Descended dev chunkId (zero 0) ⟨p.nTnodes + 1, fun k => p.granted (k + 1)⟩
              (true, zero 0, ⟨p.nTnodes + 1, fun k => p.granted (k + 1)⟩) := .refl rfl
          refine hnew.setChild (fun j hj => ?_) ?_ ?_ fun hall k => hall (k + 1)
          · rw [entryIn_zero, entryIn_succ tn, hj, hchild]
            rfl
          · rw [hchild, nodes_zero]
            simp
          · exact fun c' hc' => absurd (hchild.symm.trans hc') (by simp)
        · rw [if_neg hgranted]
          exact .refused fun hall => hgranted (hall 0)
    | l + 2 =>
      rw [addFindIn]
      -- A new child is empty, so that what the induction says of it is about no entries.
      cases hchild : tn.child (internalIndex chunkId (l + 1)) with
      | some c =>
        refine Descended.setChild (ih (l + 1) (Nat.lt_succ_self _) c p) (fun j hj => ?_) ?_ ?_ id
        · rw [entryIn_succ tn, hj, hchild]
          rfl
        · rw [hchild]
          rfl
        · exact fun c' hc' => Option.some.inj (hc'.symm.trans hchild)
      | none =>
        rw [Tnode.get]
        by_cases hgranted : p.granted 0 = true
        · rw [if_pos hgranted]
          have hnew :=
            ih (l + 1) (Nat.lt_succ_self _) (zero (l + 1)) ⟨p.nTnodes + 1,
            fun k => p.granted (k + 1)⟩
          refine hnew.setChild (fun j hj => ?_) ?_ ?_ fun hall k => hall (k + 1)
          · rw [entryIn_zero, entryIn_succ tn, hj, hchild]
            rfl
          · rw [hchild, nodes_zero]
            simp
          · exact fun c' hc' => absurd (hchild.symm.trans hc') (by simp)
        · rw [if_neg hgranted]
          exact .refused fun hall => hgranted (hall 0)

variable (dev) in
/-- Whether there is memory or not, nothing is lost; if there is, there is room for the chunk. -/
theorem addFindTnode0_spec (hlevel : f.topLevel ≤ tnodesMaxLevel) (chunkId : ℕ) (p : TnodePool) :
    let r := f.addFindTnode0 dev chunkId none p
    Kept dev f p r.2.1 r.2.2 ∧ r.2.1.topLevel ≤ tnodesMaxLevel ∧
      (r.1 = true → chunkId ≤ maxChunkId ∧ (r.2.1.findTnode0 chunkId).isSome) ∧
      (chunkId ≤ maxChunkId → (∀ k, p.granted k = true) → r.1 = true ∧
        ∀ k, r.2.2.granted k = true) := by
  dsimp only
  rw [addFindTnode0, if_neg (Nat.not_lt.2 hlevel)]
  -- A number beyond the last chunk is refused.
  by_cases hid : maxChunkId < chunkId
  · rw [if_pos hid]
    exact ⟨.refl, hlevel, fun h => absurd h Bool.false_ne_true,
      fun h => absurd h (Nat.not_le.2 hid)⟩
  rw [if_neg hid]
  have hid' := Nat.not_lt.1 hid
  have hdepth : requiredDepth (chunkId >>> 4) ≤ tnodesMaxLevel := by
    rw [requiredDepth_le_iff, Nat.shiftRight_eq_div_pow]
    have hmax : maxChunkId < 2 ^ 28 := by decide
    have hpow : 8 ^ tnodesMaxLevel = 2 ^ 24 := by decide
    omega
  -- First the tree is raised until the number is in reach, then the walk goes down.
  obtain ⟨hkept, hle, hge, hgrown, hall⟩ :=
    grow_spec dev (requiredDepth (chunkId >>> 4) - f.topLevel) f p
  generalize f.grow (requiredDepth (chunkId >>> 4) - f.topLevel) p = g at *
  obtain ⟨ok, f₁, p₁⟩ := g
  dsimp only at hkept hle hge hgrown hall
  cases ok with
  | false =>
    exact ⟨hkept, by dsimp only; omega, fun h => absurd h Bool.false_ne_true,
      fun _ h => absurd (hall h).1 Bool.false_ne_true⟩
  | true =>
    have hd := addFindIn_spec dev chunkId f₁.topLevel f₁.top p₁
    have hlow : chunkId / 16 < 8 ^ f₁.topLevel := by
      have := (requiredDepth_le_iff (i := chunkId >>> 4) (l := f₁.topLevel)).1
        (by rw [hgrown rfl]; omega)
      rwa [Nat.shiftRight_eq_div_pow] at this
    refine ⟨hkept.trans ⟨fun j => ?_, hd.nTnodes,
      hd.leftmost⟩, by dsimp only; omega, fun hok => ⟨hid', ?_⟩, fun _ h => hd.granted (hall h).2⟩
    · rw [entry, entry]
      dsimp only
      rw [hd.entry j]
    · rw [findTnode0_eq (by dsimp only; omega) hid', if_pos hlow]
      exact hd.found hok

/-! ## Setting an entry -/

/-- A chunk for which there is room gets its entry, and no other does. -/
theorem entry_load (hlevel : f.topLevel ≤ tnodesMaxLevel) (hid : chunkId ≤ maxChunkId)
    (hroom : (f.findTnode0 chunkId).isSome) (j : ℕ) :
    (f.load dev chunkId val).entry dev j =
    Function.update (f.entry dev) chunkId (dev.cut val) j := by
  rw [findTnode0_eq hlevel hid] at hroom
  have hlow : chunkId / 16 < 8 ^ f.topLevel := by
    by_contra h
    rw [if_neg h] at hroom
    exact Bool.false_ne_true hroom
  rw [if_pos hlow] at hroom
  obtain ⟨map, hmap⟩ := Option.isSome_iff_exists.1 hroom
  -- A place beyond the reach of the tree is not the one that is stored.
  by_cases hj : j / 16 < 8 ^ f.topLevel
  swap
  · rw [Function.update_of_ne fun h => hj (by rwa [h]), entry, entry, if_neg hj]
    exact if_neg hj
  have hload : (f.load dev chunkId val).entry dev j = entryIn dev j f.topLevel
      (f.top.modify (internalIndex chunkId) (dev.loadTnode0 · chunkId val) f.topLevel) := if_pos hj
  rw [hload, entryIn]
  by_cases hpath : ∀ k < f.topLevel, internalIndex j k = internalIndex chunkId k
  · -- An entry of the same tnode, or the very one.
    have hdiv := div_eq_of_internalIndex hlow hj hpath
    have hentry : f.entry dev j = dev.getGroupBase map j := by
      rw [entry, if_pos hj, entryIn, Radix.leaf_congr hpath, hmap]
      rfl
    rw [Radix.leaf_congr hpath, Radix.leaf_modify_self, hmap, Option.map_some, Option.map_some,
      Option.getD_some, ← TnodeDev.getGroupBase_mod, ← TnodeDev.loadTnode0_mod]
    by_cases hne : j = chunkId
    · rw [hne, Function.update_self, TnodeDev.getGroupBase_load_self (Nat.mod_lt _ (by decide))]
    · rw [Function.update_of_ne hne, hentry,
        TnodeDev.getGroupBase_load_of_ne (Nat.mod_lt _ (by decide))
        (Nat.mod_lt _ (by decide)) (by omega), TnodeDev.getGroupBase_mod]
  · push Not at hpath
    have hne : j ≠ chunkId := by
      rintro rfl
      obtain ⟨k, -, hk⟩ := hpath
      exact hk rfl
    rw [Function.update_of_ne hne, Radix.leaf_modify_of_ne _ hpath, entry, if_pos hj, entryIn]

/-- The first children stay. -/
theorem leftmost_load (h : f.Leftmost) : (f.load dev chunkId val).Leftmost := by
  rw [Leftmost] at h ⊢
  rw [load]
  dsimp only
  by_cases hpath : ∃ k < f.topLevel, first ≠ internalIndex chunkId k
  · rwa [Radix.leaf_modify_of_ne _ hpath]
  · push Not at hpath
    have hsame : ∀ t : Tnode f.topLevel,
        Radix.leaf (fun _ => first) f.topLevel t =
          Radix.leaf (internalIndex chunkId) f.topLevel t :=
      fun t => Radix.leaf_congr hpath
    rw [hsame] at h ⊢
    rwa [Radix.leaf_modify_self, Option.isSome_map]

/-- An entry takes no tnode. -/
theorem nodes_load : (f.load dev chunkId val).nodes = f.nodes := Radix.nodes_modify f.top

end FileVar

end DemoOs
