import DemoOs.Fs.Endian
import DemoOs.Fs.Tnode

/-!
# Tnodes in a checkpoint

When a device is unmounted, the tnodes of level 0 of a file are written to the checkpoint, each
behind the number of its first chunk (`yaffs2_checkpt_tnode_worker`, `yaffs2_wr_checkpt_tnodes` of
`yaffs_yaffs2.c`), and when it is mounted again a tree is made of them (`yaffs2_rd_checkpt_tnodes`).
The tree need not be of the same height, but it has the same entries
(`rdCheckptTnodes_wrCheckptTnodes`).
-/

namespace DemoOs

open Tnode

namespace FileVar

variable (dev : TnodeDev) (swapEndian : Bool)

/-- `yaffs2_checkpt_tnode_worker`: the words it writes. -/
def checkptTnodeWorker : (l : ℕ) → Tnode l → ℕ → List (BitVec 32)
  | 0, tn, chunkOffset =>
    doEndianU32 swapEndian (BitVec.ofNat 32 (chunkOffset <<< 4)) ::
      (List.range dev.tnodeSizeU32).map fun i => doEndianU32 swapEndian (tn i)
  | l + 1, tn, chunkOffset => (List.finRange 8).flatMap fun i =>
      (tn.child i).elim [] fun c => checkptTnodeWorker l c (chunkOffset <<< 3 + i)

/-- `yaffs2_wr_checkpt_tnodes`. -/
def wrCheckptTnodes (f : FileVar) : List (BitVec 32) :=
  checkptTnodeWorker dev swapEndian f.topLevel f.top 0 ++ [~~~0#32]

/-- The loop of `yaffs2_rd_checkpt_tnodes`, with the word read last as `base_chunk`, and the words
    to be read: whether it ends well, and the words that are left. -/
def rdLoop (baseChunk : BitVec 32) (words : List (BitVec 32)) (f : FileVar) (p : TnodePool) :
    Bool × FileVar × TnodePool × List (BitVec 32) :=
  if ~~~baseChunk = 0 then (true, f, p, words)
  else
    match Tnode.get 0 p with
    | (none, p) => (false, f, p, words)
    | (some _, p) =>
      if words.length < dev.tnodeSizeU32 then (false, f, p, [])
      else
        match f.addFindTnode0 dev baseChunk.toNat
          (some fun i => doEndianU32 swapEndian (words.getD i 0)) p with
        | (false, f, p) => (false, f, p, words.drop dev.tnodeSizeU32)
        | (true, f, p) =>
          match _h : words.drop dev.tnodeSizeU32 with
          | [] => (false, f, p, [])
          | word :: rest => rdLoop (doEndianU32 swapEndian word) rest f p
termination_by words.length
decreasing_by
  have := congrArg List.length _h
  rw [List.length_drop, List.length_cons] at this
  omega

/-- `yaffs2_rd_checkpt_tnodes`. -/
def rdCheckptTnodes (words : List (BitVec 32)) (f : FileVar) (p : TnodePool) :
    Bool × FileVar × TnodePool × List (BitVec 32) :=
  match words with
  | [] => (false, f, p, [])
  | word :: rest => rdLoop dev swapEndian (doEndianU32 swapEndian word) rest f p

variable {dev swapEndian} {f : FileVar} {p : TnodePool} {chunkId l : ℕ} {map : TnodeMap}

/-! ## Passing a tnode -/

/-- What the way down makes of a tnode if there is a tnode to be put at its end. -/
structure Placed (dev : TnodeDev) (chunkId : ℕ) (map : TnodeMap) {l : ℕ} (tn : Tnode l)
    (r : Bool × Tnode l × TnodePool) :
    Prop where
  ok : r.1 = true
  self : ∀ j, (∀ k < l, internalIndex j k = internalIndex chunkId k) →
    entryIn dev j l r.2.1 = dev.getGroupBase map j
  other : ∀ j, (∃ k < l, internalIndex j k ≠ internalIndex chunkId k) →
    entryIn dev j l r.2.1 = entryIn dev j l tn
  granted : ∀ k, r.2.2.granted k = true

theorem Placed.setChild {tn : Tnode (l + 1)} {c : Tnode l} {r : Bool × Tnode l × TnodePool}
    (h : Placed dev chunkId map c r)
    (hentry : ∀ j, internalIndex j l = internalIndex chunkId l →
      entryIn dev j l c = entryIn dev j (l + 1) tn) :
    Placed dev chunkId map tn (r.1, tn.setChild (internalIndex chunkId l) (some r.2.1), r.2.2) where
  ok := h.ok
  self j hj := by
    rw [entryIn_succ, hj l (Nat.lt_succ_self l), Radix.child_setChild_self]
    exact h.self j fun k hk => hj k (Nat.lt_succ_of_lt hk)
  other j hj := by
    by_cases hl : internalIndex j l = internalIndex chunkId l
    · obtain ⟨k, hk, hne⟩ := hj
      have hlt : k < l := Nat.lt_of_le_of_ne (Nat.le_of_lt_succ hk) fun heq => hne (heq ▸ hl)
      rw [entryIn_succ, hl, Radix.child_setChild_self, ← hentry j hl]
      exact h.other j ⟨k, hlt, hne⟩
    · rw [entryIn_succ, entryIn_succ tn, Radix.child_setChild_of_ne hl]
  granted := h.granted

variable (dev chunkId map) in
theorem addFindIn_passed (l : ℕ) (tn : Tnode l) (hgranted : ∀ k, p.granted k = true) :
    Placed dev chunkId map tn (addFindIn dev chunkId (some map) l tn p) := by
  -- By induction on the levels. The tnode passed in is put at the last one, in place of what is
  -- there.
  induction l using Nat.strong_induction_on generalizing p with
  | _ l ih =>
    match l with
    | 0 =>
      have hcopied : ∀ i < dev.tnodeSizeU32,
          (if i < dev.tnodeWidth * 16 / 8 / 4 then map i else (tn : TnodeMap) i) = map i :=
        fun i hi => if_pos (by rw [TnodeDev.tnodeSizeU32_eq] at hi; omega)
      rw [addFindIn]
      exact ⟨rfl, fun j _ => TnodeDev.getGroupBase_congr hcopied j,
        fun j hj => absurd hj (by simp), hgranted⟩
    | 1 =>
      have hzero : ∀ (c : Tnode 0) (q : TnodePool), (∀ k, q.granted k = true) →
          Placed dev chunkId map c (true, map, q) := fun c q hq =>
        ⟨rfl, fun _ _ => rfl, fun _ hj => absurd hj (by simp), hq⟩
      unfold addFindIn
      dsimp only
      cases hchild : tn.child (internalIndex chunkId 0) with
      | some c =>
        refine (hzero c (free p) hgranted).setChild fun j hj => ?_
        rw [entryIn_succ tn, hj, hchild]
        rfl
      | none =>
        refine (hzero (zero 0) p hgranted).setChild fun j hj => ?_
        rw [entryIn_zero, entryIn_succ tn, hj, hchild]
        rfl
    | l + 2 =>
      rw [addFindIn]
      cases hchild : tn.child (internalIndex chunkId (l + 1)) with
      | some c =>
        refine (ih (l + 1) (Nat.lt_succ_self _) c hgranted).setChild fun j hj => ?_
        rw [entryIn_succ tn, hj, hchild]
        rfl
      | none =>
        rw [Tnode.get, if_pos (hgranted 0)]
        refine (ih (l + 1) (Nat.lt_succ_self _) (zero (l + 1)) fun k => hgranted (k + 1)).setChild
          fun j hj => ?_
        rw [entryIn_zero, entryIn_succ tn, hj, hchild]
        rfl

variable (dev) in
/-- A tnode that is passed is that of its 16 chunks. -/
theorem addFindTnode0_passed (hlevel : f.topLevel ≤ tnodesMaxLevel) (hid : chunkId ≤ maxChunkId)
    (map : TnodeMap)
    (hgranted : ∀ k, p.granted k = true) :
    ∃ f' p', f.addFindTnode0 dev chunkId (some map) p = (true, f', p') ∧
      f'.topLevel ≤ tnodesMaxLevel ∧ (∀ k, p'.granted k = true) ∧
      ∀ j, f'.entry dev j = if j / 16 = chunkId / 16 then dev.getGroupBase map j
        else f.entry dev j := by
  have hdepth : requiredDepth (chunkId >>> 4) ≤ tnodesMaxLevel := by
    rw [requiredDepth_le_iff, Nat.shiftRight_eq_div_pow]
    have hmax : maxChunkId < 2 ^ 28 := by decide
    have hpow : 8 ^ tnodesMaxLevel = 2 ^ 24 := by decide
    omega
  obtain ⟨hkept, hle, hge, hgrown, hall⟩ :=
    grow_spec dev (requiredDepth (chunkId >>> 4) - f.topLevel) f p
  rw [addFindTnode0, if_neg (Nat.not_lt.2 hlevel), if_neg (Nat.not_lt.2 hid)]
  generalize f.grow (requiredDepth (chunkId >>> 4) - f.topLevel) p = g at *
  obtain ⟨ok, f₁, p₁⟩ := g
  obtain ⟨rfl, hall⟩ := hall hgranted
  dsimp only at hkept hle hge hgrown hall ⊢
  have hplaced := addFindIn_passed dev chunkId map f₁.topLevel f₁.top hall
  have hlow : chunkId / 16 < 8 ^ f₁.topLevel := by
    have := (requiredDepth_le_iff (i := chunkId >>> 4) (l := f₁.topLevel)).1
      (by rw [hgrown rfl]; omega)
    rwa [Nat.shiftRight_eq_div_pow] at this
  refine ⟨_, _, by rw [hplaced.ok], by dsimp only; omega, hplaced.granted, fun j => ?_⟩
  rw [← hkept.entry j, entry, entry]
  dsimp only
  -- Places beyond the reach of the tree are in no tnode.
  by_cases hj : j / 16 < 8 ^ f₁.topLevel
  · rw [if_pos hj, if_pos hj]
    split_ifs with hsame
    · refine hplaced.self j fun k _ => Fin.ext ?_
      rw [internalIndex_val, internalIndex_val, hsame]
    · refine hplaced.other j ?_
      by_contra hall
      push Not at hall
      exact hsame (div_eq_of_internalIndex hlow hj hall)
  · rw [if_neg hj, if_neg hj, if_neg fun h => hj (by rwa [h])]

/-! ## Reading what has been written -/

/-- A tnode of level 0 in the stream. -/
def record (dev : TnodeDev) (swapEndian : Bool) (r : ℕ × TnodeMap) : List (BitVec 32) :=
  doEndianU32 swapEndian (BitVec.ofNat 32 r.1) :: (List.range dev.tnodeSizeU32).map fun i =>
    doEndianU32 swapEndian (r.2 i)

/-- The tnodes of level 0 below a tnode, with the numbers of their first chunks. -/
def records : (l : ℕ) → Tnode l → ℕ → List (ℕ × TnodeMap)
  | 0, tn, offset => [(offset * 16, tn)]
  | l + 1, tn, offset => (List.finRange 8).flatMap fun i => (tn.child i).elim [] fun c =>
      records l c (offset * 8 + i)

theorem checkptTnodeWorker_eq (l : ℕ) (tn : Tnode l) (offset : ℕ) :
    checkptTnodeWorker dev swapEndian l tn offset =
      (records l tn offset).flatMap (record dev swapEndian) := by
  induction l generalizing offset with
  | zero =>
    rw [checkptTnodeWorker, records, List.flatMap_singleton, record, Nat.shiftLeft_eq]
  | succ l ih =>
    rw [checkptTnodeWorker, records, List.flatMap_assoc]
    refine List.flatMap_congr fun i _ => ?_
    cases tn.child i with
    | none => rfl
    | some c =>
      rw [Option.elim_some, Option.elim_some, ih, Nat.shiftLeft_eq]

theorem records_le (l : ℕ) (tn : Tnode l) (offset : ℕ) {r : ℕ × TnodeMap}
    (hr : r ∈ records l tn offset) :
    r.1 < (offset + 1) * 8 ^ l * 16 := by
  induction l generalizing offset with
  | zero =>
    rw [records, List.mem_singleton] at hr
    rw [hr, pow_zero]
    dsimp only
    omega
  | succ l ih =>
    rw [records] at hr
    obtain ⟨i, -, hi⟩ := List.mem_flatMap.1 hr
    cases hc : tn.child i with
    | none =>
      rw [hc] at hi
      exact absurd hi List.not_mem_nil
    | some c =>
      rw [hc] at hi
      refine lt_of_lt_of_le (ih c _ hi) (Nat.mul_le_mul_right 16 ?_)
      rw [pow_succ, Nat.mul_comm (8 ^ l), ← Nat.mul_assoc]
      exact Nat.mul_le_mul_right _ (by omega)

/-- The entry of a chunk once a tnode has been read. -/
def readEntry (dev : TnodeDev) (j : ℕ) (e : BitVec 32) (r : ℕ × TnodeMap) : BitVec 32 :=
  if j / 16 = r.1 / 16 then dev.getGroupBase r.2 j else e

/-- The tnodes that are read take their places one after the other. -/
theorem rdCheckptTnodes_records (rs : List (ℕ × TnodeMap)) (hrs : ∀ r ∈ rs, r.1 ≤ maxChunkId)
    (rest : List (BitVec 32))
    (hlevel : f.topLevel ≤ tnodesMaxLevel) (hgranted : ∀ k, p.granted k = true) :
    ∃ f' p', rdCheckptTnodes dev swapEndian
      (rs.flatMap (record dev swapEndian) ++ ~~~0#32 :: rest) f p =
      (true, f', p', rest) ∧ f'.topLevel ≤ tnodesMaxLevel ∧
      ∀ j, f'.entry dev j = rs.foldl (readEntry dev j) (f.entry dev j) := by
  induction rs generalizing f p with
  | nil =>
    -- The word that ends the records is its own reverse.
    have hones : doEndianU32 swapEndian (~~~0#32) = ~~~0#32 := by cases swapEndian <;> decide
    refine ⟨f, p, ?_, hlevel, fun _ => rfl⟩
    rw [List.flatMap_nil, List.nil_append, rdCheckptTnodes, hones, rdLoop, if_pos (by decide)]
  | cons r rs ih =>
    have hid : r.1 ≤ maxChunkId := hrs r List.mem_cons_self
    have hmax : maxChunkId < 2 ^ 28 := by decide
    have htoNat : (BitVec.ofNat 32 r.1).toNat = r.1 := by
      rw [BitVec.toNat_ofNat]
      omega
    -- The number of a chunk is too small to be taken for the end.
    have hnot : ¬~~~BitVec.ofNat 32 r.1 = 0 := fun h => by
      have hnat := congrArg BitVec.toNat h
      rw [BitVec.toNat_not, htoNat] at hnat
      have hzero : (0 : BitVec 32).toNat = 0 := rfl
      omega
    obtain ⟨f₁, p₁, hadd, hlevel₁, hgranted₁, hentry₁⟩ := addFindTnode0_passed dev hlevel hid
      (fun i =>
        doEndianU32 swapEndian
        ((((List.range dev.tnodeSizeU32).map fun i => doEndianU32 swapEndian (r.2 i)) ++
        (rs.flatMap (record dev swapEndian) ++ ~~~0#32 :: rest)).getD i 0))
      (p := ⟨p.nTnodes + 1, fun k => p.granted (k + 1)⟩) fun k => hgranted (k + 1)
    obtain ⟨f', p', hread, hlevel', hentry'⟩ :=
      ih (fun r hr => hrs r (List.mem_cons_of_mem _ hr)) hlevel₁ hgranted₁
    refine ⟨f', p', ?_, hlevel', fun j => ?_⟩
    · have hlength :
          ((List.range dev.tnodeSizeU32).map fun i => doEndianU32 swapEndian (r.2 i)).length =
          dev.tnodeSizeU32 := by
        rw [List.length_map, List.length_range]
      rw [List.flatMap_cons, record, List.cons_append, List.cons_append, List.append_assoc,
        rdCheckptTnodes, doEndianU32_doEndianU32, rdLoop, if_neg hnot, Tnode.get,
        if_pos (hgranted 0)]
      dsimp only
      rw [if_neg (by rw [List.length_append, hlength]; omega), htoNat, hadd]
      dsimp only
      rw [← hread]
      split
      · next hnil =>
        rw [List.drop_left' hlength] at hnil
        rw [hnil]
        rfl
      · next word rest' hcons =>
        rw [List.drop_left' hlength] at hcons
        rw [hcons]
        rfl
    · -- The entries read back are those of the record, both byte orders being involutions.
      rw [hentry' j, List.foldl_cons, hentry₁ j, readEntry]
      congr 1
      refine if_congr .rfl (TnodeDev.getGroupBase_congr (fun i hi => ?_) j) rfl
      rw [List.getD_append _ _ _ _ (by simpa using hi),
        List.getD_eq_getElem _ _ (by simpa using hi), List.getElem_map,
        List.getElem_range, doEndianU32_doEndianU32]

/-- One member of a list changes what is folded, if the others do not. -/
theorem foldl_ite {ι α : Type} [DecidableEq ι] {is : List ι} (hnodup : is.Nodup) {i : ι}
    (hi : i ∈ is) (g : α → ι → α) (e : α) :
    is.foldl (fun e i' => if i' = i then g e i' else e) e = g e i := by
  obtain ⟨l₁, l₂, rfl⟩ := List.append_of_mem hi
  obtain ⟨-, hnodup₂, hdisjoint⟩ := List.nodup_append.1 hnodup
  have hskip : ∀ l : List ι, i ∉ l →
      ∀ e, l.foldl (fun e i' => if i' = i then g e i' else e) e = e := fun l hl e => by
    induction l generalizing e with
    | nil => rfl
    | cons k l ih =>
      rw [List.foldl_cons, if_neg fun h : k = i => hl (h ▸ List.mem_cons_self)]
      exact ih (fun h => hl (List.mem_cons_of_mem _ h)) e
  rw [List.foldl_append, hskip l₁ fun h => hdisjoint i h i List.mem_cons_self rfl,
    List.foldl_cons, if_pos rfl, hskip l₂ (List.nodup_cons.1 hnodup₂).1]

/-- Of the tnodes below a tnode, one is that of a chunk, if there is one. -/
theorem foldl_records (l : ℕ) (tn : Tnode l) (offset j : ℕ) (e : BitVec 32) :
    (records l tn offset).foldl (readEntry dev j) e =
      if j / 16 / 8 ^ l = offset
        then ((Radix.leaf (internalIndex j) l tn).map (dev.getGroupBase · j)).getD e else e := by
  -- By induction on the levels: a place is below one child only.
  induction l generalizing offset e with
  | zero =>
    rw [records, List.foldl_cons, List.foldl_nil, readEntry, pow_zero, Nat.div_one]
    exact if_congr (by rw [Nat.mul_div_cancel _ (by decide)]) rfl rfl
  | succ l ih =>
    rw [records, List.foldl_flatMap]
    have hchild : ∀ e (i : Fin 8),
        ((tn.child i).elim [] fun c => records l c (offset * 8 + i)).foldl (readEntry dev j) e =
        if j / 16 / 8 ^ l = offset * 8 + i then
          (((tn.child i).bind (Radix.leaf (internalIndex j) l)).map (dev.getGroupBase · j)).getD e
            else e := fun e i => by
      cases tn.child i with
      | none => exact (ite_self e).symm
      | some c => exact ih c _ e
    simp only [hchild]
    by_cases hoffset : j / 16 / 8 ^ (l + 1) = offset
    · -- The digit of this level says below which child the place is.
      have hdigit : j / 16 / 8 ^ l = offset * 8 + (internalIndex j l).val := by
        rw [internalIndex_val, ← hoffset, pow_succ, ← Nat.div_div_eq_div_mul, Nat.div_add_mod']
      rw [if_pos hoffset, Radix.leaf]
      have hiff : ∀ i : Fin 8, j / 16 / 8 ^ l = offset * 8 + i ↔
          i = internalIndex j l := fun i => by
        rw [hdigit, Fin.ext_iff]
        omega
      simp only [hiff]
      exact foldl_ite (List.nodup_finRange 8) (List.mem_finRange _) _ e
    · rw [if_neg hoffset]
      have hne : ∀ i : Fin 8, j / 16 / 8 ^ l ≠ offset * 8 + i := fun i h => hoffset (by
        rw [pow_succ, ← Nat.div_div_eq_div_mul, h]
        have := i.isLt
        omega)
      simp only [hne, if_false]
      exact List.foldl_fixed ..

variable (dev swapEndian) in
/-- The tree that is read back has the entries of the one that was written, whatever follows in the
    stream, and is as high as the chunks need. -/
theorem rdCheckptTnodes_wrCheckptTnodes (hlevel : f.topLevel ≤ tnodesMaxLevel)
    (hgranted : ∀ k, p.granted k = true)
    (rest : List (BitVec 32)) :
    ∃ f' p', rdCheckptTnodes dev swapEndian (wrCheckptTnodes dev swapEndian f ++ rest) fresh p =
      (true, f', p', rest) ∧ f'.topLevel ≤ tnodesMaxLevel ∧
      ∀ j ≤ maxChunkId, ((f'.findTnode0 j).map (dev.getGroupBase · j)).getD 0 =
        ((f.findTnode0 j).map (dev.getGroupBase · j)).getD 0 := by
  have hpow : 8 ^ f.topLevel ≤ 8 ^ tnodesMaxLevel := Nat.pow_le_pow_right (by decide) hlevel
  have height : 8 ^ tnodesMaxLevel * 16 = maxChunkId + 1 := by decide
  obtain ⟨f', p', hread, hlevel', hentry⟩ := rdCheckptTnodes_records (records f.topLevel f.top 0)
    (fun r hr => by
      have := records_le f.topLevel f.top 0 hr
      omega) rest (f := fresh) (Nat.zero_le _) hgranted
  refine ⟨f', p', ?_, hlevel', fun j hj => ?_⟩
  · rw [wrCheckptTnodes, checkptTnodeWorker_eq, List.append_assoc]
    exact hread
  · rw [getD_findTnode0 hlevel' hj, getD_findTnode0 hlevel hj, hentry j, entry_fresh,
      foldl_records, entry]
    exact if_congr (Nat.div_eq_zero_iff_lt (Nat.pow_pos (by decide))) rfl rfl

end FileVar

end DemoOs
