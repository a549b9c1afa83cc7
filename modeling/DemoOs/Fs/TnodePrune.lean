import DemoOs.Fs.Tnode

/-!
# Pruning

When a file becomes shorter, tnodes without entries are given back, and the tree is made as low as
it may be (`yaffs_prune_worker`, `yaffs_prune_tree` of `yaffs_guts.c`). The leftmost tnodes stay,
entries or not: it is by them that there is always a tnode at the top (`pruneTree_spec`). Of the
others none stays that leads to no entry (`pruneTree_least`).
-/

namespace DemoOs

open Tnode

/-- The loop of `yaffs_prune_worker` over the words of a tnode. -/
def TnodeDev.hasData (dev : TnodeDev) (map : TnodeMap) : Bool :=
  (List.range dev.tnodeSizeU32).any fun i => map i ≠ 0

theorem TnodeDev.getGroupBase_of_not_hasData {dev : TnodeDev} {map : TnodeMap}
    (h : dev.hasData map = false) (pos : ℕ) :
    dev.getGroupBase map pos = 0 := by
  rw [hasData, List.any_eq_false] at h
  refine (getGroupBase_congr (fun i hi => ?_) pos).trans (getGroupBase_zeros pos)
  simpa using h i (List.mem_range.2 hi)

namespace FileVar

variable (dev : TnodeDev)

/-- `yaffs_prune_worker`: what is left of a tnode, and how many tnodes are freed. -/
def pruneWorker : (l : ℕ) → Tnode l → Bool → Option (Tnode l) × ℕ
  | 0, tn, del0 => if !dev.hasData tn && del0 then (none, 1) else (some tn, 0)
  | l + 1, tn, del0 =>
    let pruned :=
      fun i => (tn.child i).map fun c => pruneWorker l c (if i = first then del0 else true)
    let tn : Tnode (l + 1) := Radix.ofChildren fun i => (pruned i).bind Prod.fst
    let freed := ∑ i, ((pruned i).map Prod.snd).getD 0
    let hasData := (List.finRange 8).any fun i => (tn.child i).isSome
    if !hasData && del0 then (none, freed + 1) else (some tn, freed)

/-- The loop of `yaffs_prune_tree`, and how many tnodes it frees; nothing if it leaves a `top` that
    is null. -/
def shrink : (l : ℕ) → Tnode l → Option (FileVar × ℕ)
  | 0, tn => some (⟨0, tn⟩, 0)
  | l + 1, tn =>
    if (List.finRange 8).any fun i => i ≠ first && (tn.child i).isSome then some (⟨l + 1, tn⟩, 0)
    else (tn.child first).bind fun c => (shrink l c).map fun r => (r.1, r.2 + 1)

/-- `yaffs_prune_tree`. -/
def pruneTree (f : FileVar) (p : TnodePool) : Option (FileVar × TnodePool) :=
  if f.topLevel < 1 then some (f, p)
  else
    let r := pruneWorker dev f.topLevel f.top false
    (r.1.bind (shrink f.topLevel)).map fun s => (s.1, { p with nTnodes := p.nTnodes - r.2 - s.2 })

variable {dev} {f : FileVar} {p : TnodePool} {l : ℕ} {tn : Tnode l} {del0 : Bool}

/-- What `yaffs_prune_worker` makes of a tnode, `r`. -/
structure Pruned (dev : TnodeDev) {l : ℕ} (tn : Tnode l) (del0 : Bool)
    (r : Option (Tnode l) × ℕ) : Prop where
  entry : ∀ j, (r.1.map (entryIn dev j l)).getD 0 = entryIn dev j l tn
  nodes : r.2 + (r.1.map (Radix.nodes l)).getD 0 = Radix.nodes l tn
  stays : del0 = false → r.1.isSome
  leftmost : del0 = false → (Radix.leaf (fun _ => first) l tn).isSome →
    (r.1.bind (Radix.leaf (fun _ => first) l)).isSome

/-- The loop over the tnodes below: each is pruned, `g` says how. -/
theorem entryIn_pruned (tn : Tnode (l + 1)) {g : Fin 8 → Tnode l → Option (Tnode l) × ℕ}
    {d : Fin 8 → Bool}
    (hg : ∀ i c, Pruned dev c (d i) (g i c)) (j : ℕ) :
    entryIn dev j (l + 1) (Radix.ofChildren fun i => ((tn.child i).map (g i)).bind Prod.fst) =
      entryIn dev j (l + 1) tn := by
  rw [entryIn_succ, entryIn_succ tn, Radix.child_ofChildren]
  cases tn.child (internalIndex j l) with
  | none => rfl
  | some c => exact (hg _ c).entry j

theorem nodes_pruned (tn : Tnode (l + 1)) {g : Fin 8 → Tnode l → Option (Tnode l) × ℕ}
    {d : Fin 8 → Bool}
    (hg : ∀ i c, Pruned dev c (d i) (g i c)) :
    ∑ i, (((tn.child i).map (g i)).map Prod.snd).getD 0 +
      Radix.nodes (l + 1) (Radix.ofChildren fun i => ((tn.child i).map (g i)).bind Prod.fst) =
        Radix.nodes (l + 1) tn := by
  rw [Radix.nodes, Radix.nodes, Nat.add_left_comm, ← Finset.sum_add_distrib]
  refine congrArg _ (Finset.sum_congr rfl fun i _ => ?_)
  rw [Radix.child_ofChildren]
  cases tn.child i with
  | none => rfl
  | some c => exact (hg i c).nodes

variable (dev) in
theorem pruneWorker_spec (l : ℕ) (tn : Tnode l) (del0 : Bool) :
    Pruned dev tn del0 (pruneWorker dev l tn del0) := by
  -- By induction on the levels; the leftmost child keeps the flag of its parent.
  induction l generalizing del0 with
  | zero =>
    rw [pruneWorker]
    split_ifs with hfree
    · rw [Bool.and_eq_true, Bool.not_eq_true'] at hfree
      have hdel : del0 ≠ false := fun h => absurd (hfree.2.symm.trans h) (by decide)
      exact ⟨fun j => (TnodeDev.getGroupBase_of_not_hasData hfree.1 j).symm, rfl,
        fun h => absurd h hdel, fun h => absurd h hdel⟩
    · exact ⟨fun _ => rfl, rfl, fun _ => rfl, fun _ => id⟩
  | succ l ih =>
    have hg : ∀ (i : Fin 8) c, Pruned dev c (if i = first then del0 else true)
        (pruneWorker dev l c (if i = first then del0 else true)) := fun i c => ih c _
    have hentry := entryIn_pruned tn hg
    have hnodes := nodes_pruned tn hg
    rw [pruneWorker]
    dsimp only
    split_ifs with hfree
    · -- Nothing is below it any more.
      rw [Bool.and_eq_true, Bool.not_eq_true', List.any_eq_false] at hfree
      have hnone :
          ∀ i, (((tn.child i).map fun c =>
          pruneWorker dev l c (if i = first then del0 else true)).bind Prod.fst) =
          none := fun i => by simpa using hfree.1 i (List.mem_finRange i)
      have hdel : del0 ≠ false := fun h => absurd (hfree.2.symm.trans h) (by decide)
      refine ⟨fun j => ?_, ?_, fun h => absurd h hdel, fun h => absurd h hdel⟩
      · rw [← hentry j, entryIn_succ, Radix.child_ofChildren, hnone]
        rfl
      · rw [← hnodes, Radix.nodes]
        simp only [Radix.child_ofChildren, hnone, Option.map_none, Option.getD_none,
          Finset.sum_const_zero, Nat.add_zero]
    · refine ⟨hentry, hnodes, fun _ => rfl, fun hdel hleft => ?_⟩
      rw [Radix.leaf] at hleft
      obtain ⟨c, hc⟩ : ∃ c, tn.child first = some c := by
        cases hchild : tn.child first with
        | none => rw [hchild] at hleft; exact absurd hleft Bool.false_ne_true
        | some c => exact ⟨c, rfl⟩
      rw [hc] at hleft
      have hdown := (hg first c).leftmost (by rw [if_pos rfl]; exact hdel) hleft
      rw [Option.bind_some, Radix.leaf, Radix.child_ofChildren, hc]
      exact hdown

/-- A tnode at the top with nothing but the leftmost below it is one too many. -/
theorem entry_dropTop {tn : Tnode (l + 1)} {c : Tnode l} (hc : tn.child first = some c)
    (hnone : ∀ i, i ≠ first → tn.child i = none) (j : ℕ) :
    FileVar.entry dev ⟨l, c⟩ j = FileVar.entry dev ⟨l + 1, tn⟩ j := by
  rw [entry, entry]
  dsimp only
  by_cases hj : j / 16 < 8 ^ (l + 1)
  · have hzero := internalIndex_eq_first_iff hj
    rw [if_pos hj, entryIn_succ]
    by_cases hlow : j / 16 < 8 ^ l
    · rw [if_pos hlow, hzero.2 hlow, hc]
      rfl
    · rw [if_neg hlow, hnone _ fun h => hlow (hzero.1 h)]
      rfl
  · rw [if_neg hj, if_neg fun hlow =>
      hj (lt_of_lt_of_le hlow (Nat.pow_le_pow_right (by decide) (Nat.le_succ _)))]

variable (dev) in
theorem shrink_spec (l : ℕ) (tn : Tnode l) (hleft : Leftmost ⟨l, tn⟩) :
    ∃ f' n, shrink l tn = some (f', n) ∧
    (∀ j, f'.entry dev j = FileVar.entry dev ⟨l, tn⟩ j) ∧ f'.nodes + n = Radix.nodes l tn ∧
    f'.Leftmost ∧ f'.topLevel ≤ l := by
  induction l with
  | zero => exact ⟨_, _, rfl, fun _ => rfl, rfl, hleft, le_rfl⟩
  | succ l ih =>
    rw [shrink]
    split_ifs with hany
    · exact ⟨_, _, rfl, fun _ => rfl, rfl, hleft, le_rfl⟩
    · -- With no child but the first one, the top says nothing.
      have hnone : ∀ i, i ≠ first → tn.child i = none := fun i hi => by
        rw [Bool.not_eq_true, List.any_eq_false] at hany
        simpa [hi] using hany i (List.mem_finRange i)
      rw [Leftmost] at hleft
      dsimp only at hleft
      rw [Radix.leaf] at hleft
      cases hc : tn.child first with
      | none =>
        rw [hc] at hleft
        exact absurd hleft Bool.false_ne_true
      | some c =>
        rw [hc] at hleft
        obtain ⟨f', n, hshrink, hentry, hnodes, hleft', hlevel⟩ := ih c hleft
        have hnext : (some c).bind (fun c => (shrink l c).map fun r => (r.1, r.2 + 1)) =
            some (f', n + 1) := by
          rw [Option.bind_some, hshrink]
          rfl
        refine ⟨f', n + 1, hnext, fun j => (hentry j).trans (entry_dropTop hc hnone j), ?_, hleft',
          by omega⟩
        rw [Radix.nodes, Finset.sum_eq_single first (fun i _ hi => by rw [hnone i hi]; rfl)
          fun h => absurd (Finset.mem_univ _) h, hc, Option.map_some, Option.getD_some]
        omega

variable (dev) in
/-- Pruning gives back what it frees, keeps every entry, and leaves a tnode at the top. -/
theorem pruneTree_spec (p : TnodePool) (hleft : f.Leftmost) :
    ∃ f' p', pruneTree dev f p = some (f', p') ∧
    Kept dev f p f' p' ∧ f'.topLevel ≤ f.topLevel ∧ p'.granted = p.granted := by
  rw [pruneTree]
  split_ifs with hlevel
  · exact ⟨f, p, rfl, .refl, le_rfl, rfl⟩
  · have hworker := pruneWorker_spec dev f.topLevel f.top false
    generalize pruneWorker dev f.topLevel f.top false = r at *
    obtain ⟨top, freed⟩ := r
    obtain ⟨tn, rfl⟩ := Option.isSome_iff_exists.1 (hworker.stays rfl)
    obtain ⟨f', n, hshrink, hentry, hnodes, hleft', hle⟩ :=
      shrink_spec dev f.topLevel tn (hworker.leftmost rfl hleft)
    refine ⟨f', { p with nTnodes := p.nTnodes - freed - n }, ?_,
      ⟨fun j => ?_, ?_, fun _ => hleft'⟩, hle, rfl⟩
    · dsimp only
      rw [Option.bind_some, hshrink]
      rfl
    · rw [hentry j, entry, entry]
      dsimp only
      exact if_congr .rfl (hworker.entry j) rfl
    · have hfreed := hworker.nodes
      rw [Option.map_some, Option.getD_some] at hfreed
      rw [nodes]
      dsimp only at hfreed ⊢
      omega

/-! ## The smallest tree -/

/-- Every tnode but the leftmost has an entry, or a tnode below it. -/
def Tight (dev : TnodeDev) : (leftmost : Bool) → (l : ℕ) → Tnode l → Prop
  | leftmost, 0, tn => leftmost = false → dev.hasData tn = true
  | leftmost, l + 1, tn => (leftmost = false → ∃ i, (tn.child i).isSome) ∧
      ∀ i c, tn.child i = some c → Tight dev (leftmost && i = first) l c

theorem tight_pruneWorker (l : ℕ) (tn : Tnode l) (del0 : Bool) {t : Tnode l}
    (h : (pruneWorker dev l tn del0).1 = some t) : Tight dev (!del0) l t := by
  induction l generalizing del0 with
  | zero =>
    rw [pruneWorker] at h
    split_ifs at h with hfree
    obtain rfl := Option.some.inj h
    intro hdel
    rw [Bool.not_eq_false'] at hdel
    simpa [hdel] using hfree
  | succ l ih =>
    rw [pruneWorker] at h
    dsimp only at h
    split_ifs at h with hfree
    obtain rfl := Option.some.inj h
    refine ⟨fun hdel => ?_, fun i c hc => ?_⟩
    · rw [Bool.not_eq_false'] at hdel
      rw [hdel, Bool.and_true, Bool.not_eq_true', Bool.not_eq_false, List.any_eq_true] at hfree
      obtain ⟨i, -, hi⟩ := hfree
      exact ⟨i, by rw [hdel]; exact hi⟩
    · rw [Radix.child_ofChildren] at hc
      obtain ⟨r, hr, hrc⟩ := Option.bind_eq_some_iff.1 hc
      obtain ⟨c₀, -, rfl⟩ := Option.map_eq_some_iff.1 hr
      have hdel : (!del0 && decide (i = first)) = !(if i = first then del0 else true) := by
        by_cases hi : i = first
        · rw [if_pos hi, decide_eq_true hi, Bool.and_true]
        · rw [if_neg hi, decide_eq_false hi, Bool.and_false, Bool.not_true]
      rw [hdel]
      exact ih c₀ _ hrc

theorem Tight.leaf {leftmost : Bool} {path : ℕ → Fin 8} {map : TnodeMap}
    (h : Tight dev leftmost l tn)
    (hleaf : Radix.leaf path l tn = some map) : (leftmost = true ∧ ∀ k < l, path k = first) ∨
    dev.hasData map = true := by
  induction l generalizing leftmost with
  | zero =>
    obtain rfl := Option.some.inj hleaf
    cases leftmost with
    | false => exact .inr (h rfl)
    | true => exact .inl ⟨rfl, fun k hk => absurd hk (Nat.not_lt_zero k)⟩
  | succ l ih =>
    rw [Radix.leaf] at hleaf
    obtain ⟨c, hc, hleaf⟩ := Option.bind_eq_some_iff.1 hleaf
    rcases ih (h.2 _ c hc) hleaf with ⟨hleft, hpath⟩ | hdata
    · rw [Bool.and_eq_true, decide_eq_true_eq] at hleft
      refine .inl ⟨hleft.1, fun k hk => ?_⟩
      rcases Nat.lt_succ_iff_lt_or_eq.1 hk with hlt | rfl
      · exact hpath k hlt
      · exact hleft.2
    · exact .inr hdata

/-- Away from the left, there is an entry below every tnode. -/
theorem Tight.exists_leaf (h : Tight dev false l tn) :
    ∃ path map, Radix.leaf path l tn = some map ∧ dev.hasData map = true := by
  induction l with
  | zero => exact ⟨fun _ => first, tn, rfl, h rfl⟩
  | succ l ih =>
    obtain ⟨i, hi⟩ := h.1 rfl
    obtain ⟨c, hc⟩ := Option.isSome_iff_exists.1 hi
    have hdown := h.2 i c hc
    rw [Bool.false_and] at hdown
    obtain ⟨path, map, hleaf, hdata⟩ := ih hdown
    refine ⟨Function.update path l i, map, ?_, hdata⟩
    have hsame : ∀ k < l, Function.update path l i k = path k :=
      fun k hk => Function.update_of_ne (Nat.ne_of_lt hk) ..
    rw [Radix.leaf, Function.update_self, hc, Option.bind_some, Radix.leaf_congr hsame, hleaf]

/-- The loop stops at a tnode with more than the leftmost below it, or at level 0. -/
theorem tight_shrink (l : ℕ) (tn : Tnode l) (h : Tight dev true l tn) {f' : FileVar} {n : ℕ}
    (hshrink : shrink l tn = some (f', n)) : Tight dev true f'.topLevel f'.top ∧
      ∀ k, f'.topLevel = k + 1 → ∃ path map, path k ≠ first ∧
        Radix.leaf path f'.topLevel f'.top = some map ∧
        dev.hasData map = true := by
  induction l generalizing n with
  | zero =>
    obtain ⟨rfl, -⟩ := Prod.mk.inj (Option.some.inj hshrink)
    exact ⟨h, fun k hk => absurd hk (Nat.succ_ne_zero k).symm⟩
  | succ l ih =>
    rw [shrink] at hshrink
    -- The top stays if it has a child besides the first one, and that child leads to an entry.
    split_ifs at hshrink with hany
    · obtain ⟨rfl, -⟩ := Prod.mk.inj (Option.some.inj hshrink)
      refine ⟨h, fun k hk => ?_⟩
      obtain rfl : l = k := Nat.succ.inj hk
      obtain ⟨i, -, hi⟩ := List.any_eq_true.1 hany
      rw [Bool.and_eq_true, decide_eq_true_eq] at hi
      obtain ⟨c, hc⟩ := Option.isSome_iff_exists.1 hi.2
      have hdown := h.2 i c hc
      rw [decide_eq_false hi.1, Bool.and_false] at hdown
      obtain ⟨path, map, hleaf, hdata⟩ := hdown.exists_leaf
      have hsame : ∀ k < l, Function.update path l i k = path k :=
        fun k hk => Function.update_of_ne (Nat.ne_of_lt hk) ..
      refine ⟨Function.update path l i, map, by rw [Function.update_self]; exact hi.1, ?_, hdata⟩
      dsimp only
      rw [Radix.leaf, Function.update_self, hc, Option.bind_some, Radix.leaf_congr hsame, hleaf]
    · obtain ⟨c, hc, hrest⟩ := Option.bind_eq_some_iff.1 hshrink
      obtain ⟨r, hr, hpair⟩ := Option.map_eq_some_iff.1 hrest
      obtain ⟨rfl, -⟩ := Prod.mk.inj hpair
      have hdown := h.2 first c hc
      rw [decide_eq_true rfl, Bool.and_true] at hdown
      exact ih c hdown hr

/-- The number of the chunk a path leads to. -/
theorem exists_chunk_of_path (path : ℕ → Fin 8) (l : ℕ) {pos : ℕ} (hpos : pos < 16) :
    ∃ j, j / 16 < 8 ^ l ∧ j % 16 = pos ∧ ∀ k < l, internalIndex j k = path k := by
  obtain ⟨n, hn, hdigits⟩ :=
    exists_of_digits (b := 8) l (fun k => (path k).val) fun k _ => (path k).isLt
  have hdiv : (16 * n + pos) / 16 = n := by omega
  refine ⟨16 * n + pos, by rwa [hdiv], by omega, fun k hk => Fin.ext ?_⟩
  rw [internalIndex_val, hdiv, hdigits k hk]

/-- After pruning there is no tnode of level 0 without an entry, but for the one of the first
    chunks, and the tree is no higher than the entries that are left make it. -/
theorem pruneTree_least {p' : TnodePool} {f' : FileVar} (hleft : f.Leftmost)
    (hlevel : f.topLevel ≤ tnodesMaxLevel)
    (hprune : pruneTree dev f p = some (f', p')) :
    (∀ j map, f'.findTnode0 j = some map → j / 16 = 0 ∨ ∃ pos < 16, dev.getGroupBase map pos ≠ 0) ∧
      ∀ k < f'.topLevel, ∃ j, j / 16 < 8 ^ f'.topLevel ∧ 8 ^ k ≤ j / 16 ∧ f.entry dev j ≠ 0 := by
  obtain ⟨g, q, hg, hkept, hle, -⟩ := pruneTree_spec dev p hleft
  obtain ⟨rfl, rfl⟩ := Prod.mk.inj (Option.some.inj (hg.symm.trans hprune))
  -- Both loops leave the tree tight; a tree of one level is left alone.
  have htight : Tight dev true g.topLevel g.top ∧ ∀ k, g.topLevel = k + 1 →
      ∃ path map, path k ≠ first ∧
      Radix.leaf path g.topLevel g.top = some map ∧ dev.hasData map = true := by
    rw [pruneTree] at hprune
    split_ifs at hprune with hlow
    · obtain ⟨rfl, -⟩ := Prod.mk.inj (Option.some.inj hprune)
      have htop : f.topLevel = 0 := by omega
      refine ⟨?_, fun k hk => absurd (hk.symm.trans htop) (Nat.succ_ne_zero k)⟩
      obtain ⟨level, top⟩ := f
      dsimp only at htop ⊢
      subst htop
      exact fun h => absurd h (by decide)
    · obtain ⟨s, hs, hpair⟩ := Option.map_eq_some_iff.1 hprune
      obtain ⟨tn, htn, hshrink⟩ := Option.bind_eq_some_iff.1 hs
      obtain ⟨rfl, -⟩ := Prod.mk.inj hpair
      exact tight_shrink f.topLevel tn (tight_pruneWorker f.topLevel f.top false htn) hshrink
  -- A word of a leaf that is not zero has an entry that is not zero.
  have hentries : ∀ map, dev.hasData map = true → ∃ pos < 16, dev.getGroupBase map pos ≠ 0 :=
    fun map hdata => by
    obtain ⟨i, hi, hne⟩ := List.any_eq_true.1 hdata
    exact TnodeDev.exists_entry_of_word (List.mem_range.1 hi) (of_decide_eq_true hne)
  refine ⟨fun j map hfind => ?_, fun k hk => ?_⟩
  · have hid : j ≤ maxChunkId := by
      by_contra hid
      rw [findTnode0, if_neg (Nat.not_lt.2 (hle.trans hlevel)), if_pos (Nat.not_le.1 hid)] at hfind
      exact absurd hfind (by simp)
    rw [findTnode0_eq (hle.trans hlevel) hid] at hfind
    split_ifs at hfind with hj
    rcases htight.1.leaf hfind with ⟨-, hpath⟩ | hdata
    · refine .inl (div_eq_of_internalIndex (i := 0) (Nat.pow_pos (by decide)) hj fun k hk => ?_)
      rw [hpath k hk]
      refine Fin.ext ?_
      rw [internalIndex_val, Nat.zero_div]
      rfl
    · exact .inr (hentries map hdata)
  · -- The path behind the first child of the top leads to an entry of the upper half.
    obtain ⟨l, hl⟩ : ∃ l, g.topLevel = l + 1 :=
      Nat.exists_eq_succ_of_ne_zero (Nat.ne_of_gt (Nat.zero_lt_of_lt hk))
    obtain ⟨path, map, hne, hleaf, hdata⟩ := htight.2 l hl
    obtain ⟨pos, hpos, hentry⟩ := hentries map hdata
    obtain ⟨j, hj, hmod, hpath⟩ := exists_chunk_of_path path g.topLevel hpos
    refine ⟨j, hj, ?_, ?_⟩
    · have hhigh : ¬j / 16 < 8 ^ l := fun hlow => hne (by
        rw [← hpath l (by omega)]
        exact (internalIndex_eq_first_iff (by rwa [← hl])).2 hlow)
      exact (Nat.pow_le_pow_right (by decide) (by omega)).trans (Nat.not_lt.1 hhigh)
    · rw [← hkept.entry j, entry, if_pos hj, entryIn, Radix.leaf_congr hpath, hleaf,
        Option.map_some, Option.getD_some, ← TnodeDev.getGroupBase_mod, hmod]
      exact hentry

end FileVar

end DemoOs
