import DemoOs.Fs.Tnode

/-!
# Soft deletion

When a file is deleted, its chunks are only marked as ones to be deleted (`yaffs_soft_del_worker` of
`yaffs_guts.c`), from the last of the file to the first. Each is marked once, and no tnode stays but
the one at the top (`softDel_spec`).
-/

namespace DemoOs

open Tnode

namespace FileVar

variable (dev : TnodeDev)

/-- The loop of `yaffs_soft_del_worker` over the entries: what is left of a tnode, and the chunks it
    gives to `yaffs_soft_del_chunk`. -/
def softDelLoop : ℕ → TnodeMap → TnodeMap × List (BitVec 32)
  | 0, map => (map, [])
  | i + 1, map =>
    let theChunk := dev.getGroupBase map i
    if theChunk ≠ 0 then
      let r := softDelLoop i (dev.loadTnode0 map i 0)
      (r.1, theChunk :: r.2)
    else softDelLoop i map

/-- What `yaffs_soft_del_worker` has done so far: `all_done`, the tnode, the chunks and how many
    tnodes have been freed. -/
structure SoftDel (l : ℕ) where
  allDone : Bool
  tn : Tnode l
  chunks : List (BitVec 32)
  freed : ℕ

/-- `yaffs_soft_del_worker`. -/
def softDelWorker : (l : ℕ) → Tnode l → SoftDel l
  | 0, tn => let r := softDelLoop dev 16 tn; ⟨true, r.1, r.2, 0⟩
  | l + 1, tn => (List.finRange 8).reverse.foldl (fun s i =>
      if !s.allDone then s
      else
        match s.tn.child i with
        | none => s
        | some c =>
          let r := softDelWorker l c
          if r.allDone
            then ⟨true, s.tn.setChild i none, s.chunks ++ r.chunks, s.freed + r.freed + 1⟩
          else ⟨false, s.tn.setChild i (some r.tn), s.chunks ++ r.chunks, s.freed + r.freed⟩)
            ⟨true, tn, [], 0⟩

variable {dev} {l : ℕ} {tn : Tnode l} {map : TnodeMap}

/-- The entries below a tnode that are not zero, from the last to the first. -/
def entriesDown (dev : TnodeDev) (l : ℕ) (tn : Tnode l) : List (BitVec 32) :=
  ((List.range (8 ^ l * 16)).reverse.map fun j => entryIn dev j l tn).filter (· ≠ 0)

theorem softDelLoop_snd {n : ℕ} (hn : n ≤ 16) :
    (softDelLoop dev n map).2 = ((List.range n).reverse.map (dev.getGroupBase map)).filter
    (· ≠ 0) := by
  induction n generalizing map with
  | zero => rfl
  | succ n ih =>
    rw [softDelLoop, List.range_succ, List.reverse_append, List.reverse_singleton,
      List.singleton_append, List.map_cons, List.filter_cons]
    dsimp only
    by_cases hzero : dev.getGroupBase map n = 0
    · rw [if_neg (not_not.2 hzero), if_neg (by simpa using hzero), ih (by omega)]
    · rw [if_pos hzero, if_pos (by simpa using hzero), ih (by omega)]
      refine congrArg _ (congrArg _ (List.map_congr_left fun i hi => ?_))
      rw [List.mem_reverse, List.mem_range] at hi
      exact TnodeDev.getGroupBase_load_of_ne (by omega) (by omega) (by omega)

theorem softDelLoop_fst (map : TnodeMap) {n i : ℕ} (hn : n ≤ 16) (hi : i < 16) :
    (i < n → dev.getGroupBase (softDelLoop dev n map).1 i = 0) ∧
      (n ≤ i → dev.getGroupBase (softDelLoop dev n map).1 i = dev.getGroupBase map i) := by
  induction n generalizing map with
  | zero => exact ⟨fun h => absurd h (Nat.not_lt_zero i), fun _ => rfl⟩
  | succ n ih =>
    rw [softDelLoop]
    dsimp only
    by_cases hzero : dev.getGroupBase map n = 0
    · rw [if_neg (not_not.2 hzero)]
      obtain ⟨hbelow, habove⟩ := ih map (by omega)
      refine ⟨fun h => ?_, fun h => habove (by omega)⟩
      rcases Nat.lt_succ_iff_lt_or_eq.1 h with hlt | rfl
      · exact hbelow hlt
      · rw [habove le_rfl, hzero]
    · rw [if_pos hzero]
      obtain ⟨hbelow, habove⟩ := ih (dev.loadTnode0 map n 0) (by omega)
      refine ⟨fun h => ?_, fun h => ?_⟩
      · rcases Nat.lt_succ_iff_lt_or_eq.1 h with hlt | rfl
        · exact hbelow hlt
        · rw [habove le_rfl, TnodeDev.getGroupBase_load_self hi, TnodeDev.cut_zero]
      · rw [habove (by omega), TnodeDev.getGroupBase_load_of_ne (by omega) hi (by omega)]

/-- Numbers in descending order, by their first digits. -/
theorem map_reverse_range_mul {α : Type} (g : ℕ → α) (m n : ℕ) :
    (List.range (n * m)).reverse.map g =
    (List.range n).reverse.flatMap fun i => (List.range m).reverse.map fun j => g (i * m + j) := by
  induction n with
  | zero => rw [Nat.zero_mul]; rfl
  | succ n ih =>
    rw [Nat.succ_mul, List.range_add, List.reverse_append, List.map_append, ih, List.range_succ,
      List.reverse_append, List.reverse_singleton, List.singleton_append, List.flatMap_cons,
      ← List.map_reverse, List.map_map]
    rfl

/-- The entries below a tnode are those of the tnodes below it. -/
theorem entriesDown_succ (tn : Tnode (l + 1)) : entriesDown dev (l + 1) tn =
    (List.finRange 8).reverse.flatMap fun i => (tn.child i).elim [] (entriesDown dev l) := by
  have hrange : (List.range 8).reverse = (List.finRange 8).reverse.map Fin.val := by decide
  rw [entriesDown, pow_succ, Nat.mul_comm (8 ^ l), Nat.mul_assoc, map_reverse_range_mul, hrange,
    List.flatMap_map, List.filter_flatMap]
  refine List.flatMap_congr fun i _ => ?_
  -- The places below a child are a range of their own, in the order of the children.
  have hentry : ∀ j < 8 ^ l * 16, entryIn dev (i.val * (8 ^ l * 16) + j) (l + 1) tn =
      ((tn.child i).map (entryIn dev j l)).getD 0 := fun j hj => by
    have hdiv : (i.val * (8 ^ l * 16) + j) / 16 = j / 16 + 8 ^ l * i := by
      rw [show i.val * (8 ^ l * 16) + j =
        j + 16 * (8 ^ l * i) by ring, Nat.add_mul_div_left _ _ (by decide)]
    have hlow : j / 16 < 8 ^ l := Nat.div_lt_of_lt_mul (by rwa [Nat.mul_comm])
    have htop : internalIndex (i.val * (8 ^ l * 16) + j) l = i := Fin.ext (by
      rw [internalIndex_val, hdiv, Nat.add_mul_div_left _ _ (Nat.pow_pos (by decide)),
        Nat.div_eq_of_lt hlow, Nat.zero_add, Nat.mod_eq_of_lt i.isLt])
    have hpath : ∀ k < l, internalIndex (i.val * (8 ^ l * 16) + j) k = internalIndex j k :=
      fun k hk => Fin.ext (by
      obtain ⟨m, rfl⟩ := Nat.exists_eq_add_of_lt hk
      rw [internalIndex_val, internalIndex_val, hdiv,
        show 8 ^ (k + m + 1) * i.val = 8 ^ k * (8 * (8 ^ m * i)) by ring,
        Nat.add_mul_div_left _ _ (Nat.pow_pos (by decide)), Nat.add_mul_mod_self_left])
    have hpos : (i.val * (8 ^ l * 16) + j) % 16 = j % 16 := by
      rw [show i.val * (8 ^ l * 16) + j = j + 16 * (8 ^ l * i) by ring, Nat.add_mul_mod_self_left]
    rw [entryIn_succ, htop]
    cases tn.child i with
    | none => rfl
    | some c =>
      rw [Option.map_some, Option.map_some, Option.getD_some, Option.getD_some, entryIn, entryIn,
        Radix.leaf_congr hpath]
      refine congrArg (fun g => (Option.map g (Radix.leaf (internalIndex j) l c)).getD 0)
        (funext fun map => ?_)
      rw [← TnodeDev.getGroupBase_mod, hpos, TnodeDev.getGroupBase_mod]
  have hmap :
      ((List.range (8 ^ l * 16)).reverse.map fun j =>
      entryIn dev (i.val * (8 ^ l * 16) + j) (l + 1) tn) =
      (List.range (8 ^ l * 16)).reverse.map fun j => ((tn.child i).map (entryIn dev j l)).getD 0 :=
    List.map_congr_left fun j hj => hentry j (List.mem_range.1 (List.mem_reverse.1 hj))
  rw [hmap]
  cases tn.child i with
  | none =>
    rw [Option.elim_none, List.filter_eq_nil_iff]
    intro x hx
    obtain ⟨j, -, rfl⟩ := List.mem_map.1 hx
    simp
  | some c => rfl

/-- What becomes of a tnode. -/
structure SoftDeleted (dev : TnodeDev) {l : ℕ} (tn : Tnode l) (r : SoftDel l) : Prop where
  done : r.allDone = true
  chunks : r.chunks = entriesDown dev l tn
  freed : r.freed + 1 = Radix.nodes l tn
  gone : ∀ j, entryIn dev j l r.tn = 0

/-- The loop over the tnodes below, from some state. -/
theorem softDel_foldl {g : Tnode l → SoftDel l} (hg : ∀ c, SoftDeleted dev c (g c))
    (is : List (Fin 8))
    (hnodup : is.Nodup) (s : SoftDel (l + 1)) (hdone : s.allDone = true) :
    let r := is.foldl (fun (s : SoftDel (l + 1)) i =>
      if !s.allDone then s
      else
        match s.tn.child i with
        | none => s
        | some c =>
          let r := g c
          if r.allDone
            then ⟨true, s.tn.setChild i none, s.chunks ++ r.chunks, s.freed + r.freed + 1⟩
          else ⟨false, s.tn.setChild i (some r.tn), s.chunks ++ r.chunks, s.freed + r.freed⟩) s
    r.allDone = true ∧
      r.chunks = s.chunks ++ is.flatMap (fun i => (s.tn.child i).elim [] (entriesDown dev l)) ∧
      r.freed + Radix.nodes (l + 1) r.tn = s.freed + Radix.nodes (l + 1) s.tn ∧
        (∀ i ∈ is, r.tn.child i = none) ∧
      ∀ i ∉ is, r.tn.child i = s.tn.child i := by
  -- By induction on the children left, from the last one on; each is visited once.
  induction is generalizing s with
  | nil => exact ⟨hdone, (List.append_nil _).symm, rfl, fun i hi => absurd hi List.not_mem_nil,
      fun _ _ => rfl⟩
  | cons i is ih =>
    obtain ⟨hi, hnodup⟩ := List.nodup_cons.1 hnodup
    dsimp only
    rw [List.foldl_cons, hdone, Bool.not_true, if_neg Bool.false_ne_true, List.flatMap_cons]
    cases hc : s.tn.child i with
    | none =>
      obtain ⟨hd, hchunks, hnodes, hgone, hother⟩ := ih hnodup s hdone
      refine ⟨hd, hchunks, hnodes, fun k hk => ?_, fun k hk => hother k fun h =>
        hk (List.mem_cons_of_mem _ h)⟩
      rcases List.mem_cons.1 hk with rfl | hk
      · rw [hother k hi, hc]
      · exact hgone k hk
    | some c =>
      have hdown := hg c
      obtain ⟨hd, hchunks, hnodes, hgone, hother⟩ := ih hnodup
        ⟨true, s.tn.setChild i none, s.chunks ++ (g c).chunks, s.freed + (g c).freed + 1⟩ rfl
      have hset := Radix.nodes_setChild s.tn i none
      rw [hc, Option.map_some, Option.getD_some, Option.map_none, Option.getD_none] at hset
      dsimp only
      rw [if_pos hdown.done]
      dsimp only at hchunks hnodes hother
      refine ⟨hd, ?_, ?_, fun k hk => ?_, fun k hk => ?_⟩
      · rw [hchunks, hdown.chunks, Option.elim_some, List.append_assoc]
        refine congrArg _ (congrArg _ (List.flatMap_congr fun k hk => ?_))
        rw [Radix.child_setChild_of_ne fun h : k = i => hi (h ▸ hk)]
      · have hfreed := hdown.freed
        omega
      · rcases List.mem_cons.1 hk with rfl | hk
        · rw [hother k hi, Radix.child_setChild_self]
        · exact hgone k hk
      · rw [List.mem_cons, not_or] at hk
        rw [hother k hk.2, Radix.child_setChild_of_ne hk.1]

variable (dev) in
theorem softDelWorker_spec (l : ℕ) (tn : Tnode l) :
    SoftDeleted dev tn (softDelWorker dev l tn) := by
  induction l with
  | zero =>
    rw [softDelWorker]
    refine ⟨rfl, softDelLoop_snd le_rfl, rfl, fun j => ?_⟩
    have hj : j % 16 < 16 := Nat.mod_lt j (by decide)
    exact (TnodeDev.getGroupBase_mod _ j).symm.trans ((softDelLoop_fst tn le_rfl hj).1 hj)
  | succ l ih =>
    obtain ⟨hdone, hchunks, hnodes, hgone, -⟩ := softDel_foldl ih (List.finRange 8).reverse
      (List.nodup_reverse.2 (List.nodup_finRange 8)) ⟨true, tn, [], 0⟩ rfl
    rw [softDelWorker]
    have hnone := fun i => hgone i (List.mem_reverse.2 (List.mem_finRange i))
    refine ⟨hdone, hchunks.trans (entriesDown_succ tn).symm, ?_,
      fun j => by rw [entryIn_succ, hnone]; rfl⟩
    rw [Radix.nodes, Finset.sum_eq_zero fun i _ => by rw [hnone]; rfl] at hnodes
    exact hnodes.trans (Nat.zero_add _)

end FileVar

end DemoOs
