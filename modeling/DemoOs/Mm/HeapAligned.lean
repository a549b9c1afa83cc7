import Mathlib.Data.List.Find
import DemoOs.Mm.HeapRun

/-!
# Aligned allocation

`allocate(word_t, word_t)` looks for a free segment with enough bytes from an aligned address on.
The segment is cut before the descriptor of the block, which is right before the aligned address,
or, where there is no room for another segment, its header grows; what is left after the block is
cut off as in `allocate(word_t)`.

Three computations of this function may overflow: rounding the size up to a word, rounding the
address up to the alignment, and the difference of the end of the segment and this address, when
there is not even room for the padding.
-/

namespace DemoOs

namespace Heap

open Mem

variable {header : ℕ} {B : Set (ℕ × ℕ)} {T : Tiling} {m : Mem} {h : Heap} {R : List ℕ} {a : ℕ}
  {s : Seg}

/-! ## The walk along the free ring -/

theorem Rep.payloadAddr_eq (hrep : Rep header B m T R) (ha : T a = some s) :
    payloadAddr m a = a + s.hoff := by
  have := hrep.layout.bound ha
  rw [payloadAddr, hrep.headerOffset_eq ha, word_eq (by omega)]

theorem Rep.alignedAddr_eq (hrep : Rep header B m T R) (ha : T a = some s) (al : ℕ) :
    alignedAddr m a al = alignUp (a + s.hoff) al := by
  rw [alignedAddr, hrep.payloadAddr_eq ha]

theorem Rep.alignedSize_eq (hrep : Rep header B m T R) (ha : T a = some s) (al : ℕ) :
    alignedSize m a al = wordSub (a + s.hoff + s.avail) (alignUp (a + s.hoff) al) := by
  have hend : word (payloadAddr m a + m.availableSize a) = a + s.hoff + s.avail := by
    rw [hrep.payloadAddr_eq ha, hrep.availableSize_eq ha, word_eq (hrep.layout.bound ha).2.2]
  rw [alignedSize, hend, hrep.alignedAddr_eq ha]

/-- The walk finds the first segment with room enough; its result is the aligned address in the last
    segment it has come to. -/
theorem Rep.findAligned_eq (hrep : Rep header B m T R) (k al : ℕ) {l : List ℕ} (hl : ∀ a ∈ l, a ∈ R)
    {p fuel r : ℕ} (hchain : (p :: (l.map (· + 8) ++ [header])).IsChain m.linksOf.Linked)
    (hfuel : l.length < fuel) :
    findAligned header m k al fuel (m.next p) r =
      some ((l.find? fun a => k ≤ alignedSize m a al).map (· + 8),
        ((l.find? fun a => k ≤ alignedSize m a al).map (alignedAddr m · al)).getD
          (l.foldl (fun _ a => alignedAddr m a al) r)) := by
  induction l generalizing p fuel r with
  | nil =>
    obtain ⟨fuel, rfl⟩ := Nat.exists_eq_succ_of_ne_zero (Nat.ne_of_gt hfuel)
    rw [List.map_nil, List.nil_append, List.isChain_pair] at hchain
    rw [(ptr_eq_some.1 hchain.1).1, findAligned, if_pos rfl]
    rfl
  | cons a l ih =>
    obtain ⟨fuel, rfl⟩ := Nat.exists_eq_succ_of_ne_zero (Nat.ne_of_gt (Nat.zero_lt_of_lt hfuel))
    rw [List.map_cons, List.cons_append, List.isChain_cons_cons] at hchain
    obtain ⟨s, ha, -⟩ := hrep.mem_ring a (hl a List.mem_cons_self)
    have hne : a + 8 ≠ header := by
      have h₁ := hrep.layout.header_apart ha
      have h₂ := hrep.layout.bound ha
      omega
    rw [(ptr_eq_some.1 hchain.1.1).1, findAligned, if_neg hne, hrep.layout.listEntry_eq ha,
      List.foldl_cons]
    by_cases hk : k ≤ alignedSize m a al
    · rw [if_pos hk, List.find?_cons_of_pos (by simpa using hk), Option.map_some, Option.map_some,
        Option.getD_some]
    · rw [if_neg hk, List.find?_cons_of_neg (by simpa using hk)]
      exact ih (fun b hb => hl b (List.mem_cons_of_mem _ hb)) hchain.2
        (Nat.lt_of_succ_lt_succ hfuel)

/-! ## Cutting off the padding -/

section CutFront

variable (hrep : Rep header B m T R) (ha : T a = some s) {k : ℕ} (hk : k + 24 ≤ s.avail)

include hrep ha hk

/-- The stores are those of `cut`, and the links of the new segment are cleared. -/
theorem Rep.cutFront_apply (x : ℕ) :
    setPayload (cutFront m a (a + s.hoff + k) (a + s.hoff)) (a + s.hoff + k) (a + s.hoff + k + 24)
        (s.avail - k - 24) x =
      if x = a + s.hoff + k + 8 ∨ x = a + s.hoff + k + 12 then 0 else Heap.cut m a k x := by
  obtain ⟨hpos, hoff, hlt⟩ := hrep.layout.bound ha
  have hr := hrep.layout.right_eq ha
  have w₁ : word (a + s.hoff + k + 4) = a + s.hoff + k + 4 := word_eq (by omega)
  have w₂ : word (a + s.hoff + k + 16) = a + s.hoff + k + 16 := word_eq (by omega)
  have w₃ : word (a + s.hoff + k + 20) = a + s.hoff + k + 20 := word_eq (by omega)
  have w₄ : word (a + 4) = a + 4 := word_eq (by omega)
  have w₅ : word (a + 16) = a + 16 := word_eq (by omega)
  have w₆ : word (a + s.hoff + k + 8) = a + s.hoff + k + 8 := word_eq (by omega)
  have w₇ : word (a + s.hoff + k + 8 + 4) = a + s.hoff + k + 12 := word_eq (by omega)
  have d₁ : wordSub (a + s.hoff + k) (a + s.hoff) = k := by
    rw [wordSub_eq (by omega) (by omega)]
    omega
  have d₂ : wordSub (a + s.hoff + k + 24) (a + s.hoff + k) = 24 := by
    rw [wordSub_eq (by omega) (by omega)]
    omega
  have d₃ : wordSub (a + s.hoff + k + 24) 4 = a + s.hoff + k + 20 := by
    rw [wordSub_eq (by omega) (by omega)]
    omega
  have hright : (m.setLeft (a + s.hoff + k) a).right a = s.right := by
    rw [Mem.right, w₄, setLeft, write_apply, if_neg (by omega), (hrep.seg ha).right]
  rw [hrep.cut_apply ha hk]
  simp only [setPayload, cutFront, hright, d₁, d₂, d₃, doubleList, w₆]
  simp only [setRight, setLeft, setAvailableSize, setHeaderOffset, setPrev, setNext, Mem.right,
    Mem.headerOffset, w₁, w₂, w₃, w₄, w₅, w₇]
  -- The right link that is read back has been written by the cut.
  have hread : ((m.write (a + s.hoff + k) a).write (a + s.hoff + k + 4) s.right).write (a + 4)
      (a + s.hoff + k) (a + s.hoff + k + 4) = s.right := by
    rw [write_apply, if_neg (by omega), write_apply, if_pos rfl]
  rw [hread]
  by_cases hr₀ : s.right = 0
  · simp only [hr₀, ne_eq, not_true_eq_false, if_false, write_apply, ite_true, false_and]
    grind
  · simp only [hr₀, ne_eq, not_false_eq_true, if_true, write_apply, true_and]
    grind

/-- A free segment is cut, its second part being in use, its first part still in the free ring. -/
theorem Rep.cutFront (hf : s.free) (h4 : 4 ∣ k) :
    Rep header B (setPayload (Heap.cutFront m a (a + s.hoff + k) (a + s.hoff)) (a + s.hoff + k)
        (a + s.hoff + k + 24) (s.avail - k - 24))
      ((T.split 24 a s k).setFree 24 (a + s.hoff + k)
        { s with left := a, hoff := 24, avail := s.avail - k - 24, free := true } false) R := by
  have hoff := hrep.layout.wf.free_header ha hf
  have h4' : 4 ∣ a + s.hoff + k :=
    Nat.dvd_add (Nat.dvd_add (hrep.layout.aligned ha) (hoff ▸ by decide)) h4
  exact (hrep.cut ha hk h4').clear (hrep.layout.wf.split_new (by decide) ha hk)
    (hrep.not_mem_cut ha hk)
    (hrep.cutFront_apply ha hk)

end CutFront

/-- The stores of the descriptor of a segment in use whose header grows. -/
theorem Rep.setPayload (hrep : Rep header B m T R) (ha : T a = some s) (hu : s.free = false) {d : ℕ}
    (hd : d ≤ s.avail) (hoff : s.hoff = 24) : Rep header B
      (Heap.setPayload m a (a + s.hoff + d) (s.avail - d)) (T.pad a s d) R := by
  obtain ⟨hpos, -, hlt⟩ := hrep.layout.bound ha
  have w₁ : word (a + 16) = a + 16 := word_eq (by omega)
  have w₂ : word (a + 20) = a + 20 := word_eq (by omega)
  have d₁ : wordSub (a + s.hoff + d) a = s.hoff + d := by
    rw [wordSub_eq (by omega) (by omega)]
    omega
  have d₂ : wordSub (a + s.hoff + d) 4 = a + s.hoff + d - 4 := wordSub_eq (by omega) (by omega)
  have happ : ∀ x, Heap.setPayload m a (a + s.hoff + d) (s.avail - d) x =
      if x = a + s.hoff + d - 4 then s.hoff + d else if x = a + 20 then s.hoff + d
      else if x = a + 16 then s.avail - d else m x := fun x => by
    simp only [Heap.setPayload, setAvailableSize, setHeaderOffset, Mem.headerOffset, w₁, w₂, d₁, d₂,
      write_apply, if_true]
  have hseg := hrep.seg ha
  refine hrep.replace ha (hrep.not_mem_of_used ha hu) (hrep.layout.wf.pad ha hu hd) ?_ ?_ ?_ id
  · refine ⟨?_, ?_, ?_, ?_, ?_⟩
    · rw [happ, if_neg (by omega), if_neg (by omega), if_neg (by omega), hseg.left]
    · rw [happ, if_neg (by omega), if_neg (by omega), if_neg (by omega), hseg.right]
    · rw [happ, if_neg (by omega), if_neg (by omega), if_pos rfl]
    · rw [happ, if_pos rfl]
      exact ite_self _
    · exact (happ _).trans (if_pos (by simp only; omega))
  · constructor <;>
    rw [happ, if_neg (by omega), if_neg (by omega), if_neg (by omega)]
  · intro x hx
    rw [happ, if_neg (by omega), if_neg (by omega), if_neg (by omega)]

/-! ## Taking a segment -/

/-- The free segment `s` at `a` has an aligned address `r` in its payload, or at the end of it. -/
structure Room (a : ℕ) (s : Seg) (r : ℕ) : Prop where
  le : a + 24 ≤ r
  le_end : r ≤ a + 24 + s.avail
  aligned : 4 ∣ r

/-- The segment in use which a free one has given, `p` being its payload, and `avail` its length. -/
structure Taken (T T' : Tiling) (c p avail : ℕ) (u : Seg) : Prop where
  seg : T' c = some u
  used : u.free = false
  payload : c + u.hoff = p
  avail : u.avail = avail
  right : ∀ t, T' u.right = some t → t.free = false
  used_eq : T'.used = Function.update T.used c (some (u.hoff, u.avail))

variable {r : ℕ}

/-- The padding has room for a segment: it stays free. -/
theorem Inv.cutFront (hinv : Inv header B h T R) (ha : T a = some s) (hf : s.free) (hr : Room a s r)
    (hgt : a + 24 < r - 24) : ∃ T' u,
      Inv header B { h with mem := (setPayload (Heap.cutFront h.mem a (r - 24) (a + 24)) (r - 24) r
        (a + 24 + s.avail - r)) } T' R ∧
      Taken T T' (r - 24) r (a + 24 + s.avail - r) u := by
  have hwf := hinv.rep.layout.wf
  have hoff := hwf.free_header ha hf
  obtain ⟨k, hk⟩ : ∃ k, r = a + s.hoff + k + 24 := ⟨r - a - 48, by omega⟩
  have hle := hr.le_end
  have hk' : k + 24 ≤ s.avail := by omega
  have h4 : 4 ∣ k := by
    have h₁ := hr.aligned
    have h₂ := hinv.rep.layout.aligned ha
    omega
  have hrep := hinv.rep.cutFront ha hk' hf h4
  have happ := hwf.split_apply (by decide) ha hk'
  have e₁ : r - 24 = a + s.hoff + k := by omega
  have e₂ : a + 24 + s.avail - r = s.avail - k - 24 := by omega
  have e₃ : a + 24 = a + s.hoff := by omega
  rw [e₁, e₂, e₃, hk]
  refine ⟨_, { s with left := a, hoff := 24, avail := s.avail - k - 24, free := false },
    ⟨hrep, fun c u hc hu => ?_, hinv.coalesced.split_use hwf (by decide) ha hk' _, hinv.start,
      hinv.stop⟩, Function.update_self .., rfl, rfl, rfl, fun t ht => ?_, ?_⟩
  · -- The free segments are those of before.
    obtain ⟨hcb, hc⟩ := Tiling.of_update_used rfl hc hu
    rw [happ, if_neg hcb] at hc
    split_ifs at hc with h₁ h₂
    · exact h₁ ▸ hinv.all ha hf
    · obtain ⟨t, ht, rfl⟩ := Option.map_eq_some_iff.1 hc
      exact hinv.all ht hu
    · exact hinv.all hc hu
  · -- The segment behind was not free, the tiling being coalesced.
    by_contra hne
    obtain ⟨-, ht⟩ := Tiling.of_update_used rfl ht (by simpa using hne)
    simp only at ht
    rw [happ, if_neg (hwf.right_ne (by decide) ha), if_neg (hwf.split_ne_right (by decide) ha hk'),
      if_pos rfl] at ht
    obtain ⟨t', ht', rfl⟩ := Option.map_eq_some_iff.1 ht
    exact hinv.coalesced ha ht' hf (by simpa using hne)
  · rw [Tiling.used_take, hwf.used_split (by decide) ha hf hk']

/-- The padding has no room for a segment: it goes to the header. -/
theorem Inv.growHeader (hinv : Inv header B h T R) (ha : T a = some s) (hf : s.free)
    (hr : Room a s r) :
    ∃ T' u, Inv header B { h with mem := (setPayload (h.mem.delNodeFromRingDoubleList (a + 8)) a r
        (a + 24 + s.avail - r)) } T' (R.erase a) ∧
      Taken T T' a r (a + 24 + s.avail - r) u := by
  have hwf := hinv.rep.layout.wf
  have hoff := hwf.free_header ha hf
  have htake := hinv.take ha hf
  have hself : T.setFree 24 a s false a = some { s with free := false } := Function.update_self ..
  obtain ⟨d, hd⟩ : ∃ d, r = a + s.hoff + d := ⟨r - (a + s.hoff), by have := hr.le; omega⟩
  have hle := hr.le_end
  have hrep : Rep header B (setPayload (h.mem.delNodeFromRingDoubleList (a + 8)) a (a + s.hoff + d)
      (s.avail - d)) ((T.setFree 24 a s false).pad a { s with free := false } d) (R.erase a) :=
    htake.rep.setPayload hself rfl (by simp only; omega) hoff
  have e : a + 24 + s.avail - r = s.avail - d := by omega
  rw [e, hd]
  have hu : ({ s with hoff := s.hoff + d, avail := s.avail - d, free := false } : Seg).free =
      false := rfl
  refine ⟨_, _, ⟨hrep, fun c u hc huf => ?_, htake.coalesced.use a hu, hinv.start, hinv.stop⟩,
    Function.update_self .., hu, (Nat.add_assoc ..).symm, rfl, fun t ht => ?_, ?_⟩
  · exact htake.all (Tiling.of_update_used hu hc huf).2 huf
  · by_contra hne
    have hf' : t.free = true := by simpa using hne
    obtain ⟨-, ht⟩ := Tiling.of_update_used hu ht hf'
    exact hinv.coalesced ha (Tiling.of_update_used rfl ht hf').2 hf hf'
  · rw [Tiling.used_pad _ _ rfl, Tiling.used_take, Function.update_idem]

/-- A segment in use is cut, the rest of it entering the free ring. -/
theorem Inv.cut_used (hinv : Inv header B h T R) (ha : T a = some s) (hu : s.free = false)
    (hright : ∀ t, T s.right = some t → t.free = false) {k : ℕ} (hk : k + 24 ≤ s.avail)
    (h4 : 4 ∣ a + s.hoff + k) : ∃ T' R',
      Inv header B { h with mem := (link header (cut h.mem a k) (a + s.hoff + k)) } T' R' ∧
      T' a = some { s with right := a + s.hoff + k, avail := k } ∧
      T'.used = Function.update T.used a (some (s.hoff, k)) := by
  have hwf := hinv.rep.layout.wf
  have hnew := hwf.split_new (by decide) ha hk
  obtain ⟨R', hR', hlink⟩ := (hinv.rep.cut ha hk h4).link hnew rfl (hinv.rep.not_mem_cut ha hk)
  refine ⟨_, R',
    ⟨hlink, fun c u hc huf => ?_, hinv.coalesced.split_used hwf (by decide) ha hk hu hright,
    hinv.start, hinv.stop⟩, hwf.split_self (by decide) ha hk, ?_⟩
  · rw [hwf.split_apply (by decide) ha hk] at hc
    rw [hR']
    split_ifs at hc with h₁ h₂ h₃
    · obtain rfl := Option.some.inj hc
      rw [hu] at huf
      cases huf
    · exact .inl h₂
    · obtain ⟨t, ht, rfl⟩ := Option.map_eq_some_iff.1 hc
      exact .inr (hinv.all ht huf)
    · exact .inr (hinv.all hc huf)
  · rw [hwf.used_split_eq (by decide) ha hk, hu]
    rfl

/-- `alignDown` leaves the addresses of segments as they are. -/
theorem alignDown_four {n : ℕ} (hn : n < 2 ^ 32) (h4 : 4 ∣ n) : alignDown n 4 = n := by
  rw [show (4 : ℕ) = 2 ^ 2 from rfl, alignDown_two_pow hn (by decide)]
  exact Nat.div_mul_cancel h4

/-- The stores of `takeAligned`, the segment `c` being the one to be used. -/
theorem takeAligned_eq {m₁ : Mem} {p c A N d w : ℕ} (hfront : takeFront m p r = (m₁, c))
    (hd : wordSub A N = d) (hw : word (r + N) = w) :
    takeAligned header m p r A N =
      if d > sizeofHeapSegmentDesc then link header (cut (setPayload m₁ c r A) c N) w
      else setPayload m₁ c r A := by
  rw [takeAligned, hfront, hd, hw]

theorem takeFront_eq {p l b : ℕ} (hnode : listEntry p = a)
    (hl : payloadAddr m a = l) (hb : alignDown (wordSub r sizeofHeapSegmentDesc) 4 = b) :
    takeFront m p r = if b > l then (Heap.cutFront m a b l, b)
      else (m.delNodeFromRingDoubleList p, a) := by
  rw [takeFront, hnode, hl, hb]

/-- A segment with room for `k` bytes from the aligned address `r` on is taken: these bytes are in a
    segment in use, which lies in the one taken. -/
theorem Inv.takeAligned (hinv : Inv header B h T R) (ha : T a = some s) (hf : s.free)
    (hr : Room a s r)
    {k : ℕ} (hk : r + k ≤ a + 24 + s.avail) (h4 : 4 ∣ k) : ∃ T' R' c u,
      Inv header B { h with
        mem := (Heap.takeAligned header h.mem (a + 8) r (a + 24 + s.avail - r) k) } T' R' ∧
      T' c = some u ∧ u.free = false ∧ c + u.hoff = r ∧ k ≤ u.avail ∧
      (c = a ∨ c = r - 24 ∧ a + 24 < r - 24) ∧
        T'.used = Function.update T.used c (some (u.hoff, u.avail)) := by
  have hbnd := hinv.rep.layout.bound ha
  have hoff := hinv.rep.layout.wf.free_header ha hf
  have hle := hr.le
  have hnew : alignDown (wordSub r sizeofHeapSegmentDesc) 4 = r - 24 := by
    have := hr.le_end
    rw [sizeofHeapSegmentDesc, wordSub_eq (by omega) (by omega),
      alignDown_four (by omega) (Nat.dvd_sub hr.aligned (by decide))]
  have hleft : payloadAddr h.mem a = a + 24 := by rw [hinv.rep.payloadAddr_eq ha, hoff]
  -- The segment in use, before what comes after the block is cut off.
  obtain ⟨m₁, T₁, R₁, c, u, hinv₁, htaken, hc, hm₁⟩ : ∃ m₁ T₁ R₁ c u,
      Inv header B { h with mem := (setPayload m₁ c r (a + 24 + s.avail - r)) } T₁ R₁ ∧
      Taken T T₁ c r (a + 24 + s.avail - r) u ∧ (c = a ∨ c = r - 24 ∧ a + 24 < r - 24) ∧
      takeFront h.mem (a + 8) r = (m₁, c) := by
    rw [takeFront_eq (hinv.rep.layout.listEntry_eq ha) hleft hnew]
    by_cases hgt : a + 24 < r - 24
    · obtain ⟨T₁, u, hinv₁, htaken⟩ := hinv.cutFront ha hf hr hgt
      exact ⟨_, T₁, _, _, u, hinv₁, htaken, .inr ⟨rfl, hgt⟩, if_pos hgt⟩
    · obtain ⟨T₁, u, hinv₁, htaken⟩ := hinv.growHeader ha hf hr
      exact ⟨_, T₁, _, _, u, hinv₁, htaken, .inl rfl, if_neg hgt⟩
  have hsize : wordSub (a + 24 + s.avail - r) k = a + 24 + s.avail - r - k :=
    wordSub_eq (by omega) (by omega)
  rw [takeAligned_eq hm₁ hsize (word_eq (show r + k < 2 ^ 32 by omega)), sizeofHeapSegmentDesc]
  have havail := htaken.avail
  have hpay := htaken.payload
  split_ifs with hgt
  · have h4' : 4 ∣ c + u.hoff + k := by
      rw [hpay]
      exact Nat.dvd_add hr.aligned h4
    obtain ⟨T', R', hinv', hc', hused⟩ :=
      hinv₁.cut_used htaken.seg htaken.used htaken.right (k := k)
      (by omega) h4'
    rw [hpay] at hinv'
    refine ⟨T', R', c, _, hinv', hc', htaken.used, hpay, le_rfl, hc, ?_⟩
    rw [hused, htaken.used_eq, Function.update_idem]
  · exact ⟨T₁, R₁, c, u, hinv₁, htaken.seg, htaken.used, hpay, by omega, hc, htaken.used_eq⟩

/-! ## The safety of an allocation -/

/-- The test of the walk: `node` has `n` bytes, rounded up to whole words, from the aligned address
    on. -/
def Suffices (m : Mem) (n al node : ℕ) : Prop := alignUp n 4 ≤ alignedSize m node al

instance (m : Mem) (n al node : ℕ) : Decidable (Suffices m n al node) :=
  inferInstanceAs (Decidable (_ ≤ _))

/-- `allocate` takes the segment of the list node `p`. -/
def Takes (header : ℕ) (m : Mem) (n al p : ℕ) : Prop :=
  ∃ r, findAligned header m (alignUp n 4) al (2 ^ 32) (m.next header) 0 = some (some p, r)

/-- The free ring is made of the list nodes of the segments in it. -/
theorem Rep.ring_eq (hrep : Rep header B m T R) {ps : List ℕ}
    (hring : m.linksOf.IsRing ↑(header :: ps)) :
    ps = R.map (· + 8) := by
  refine hring.eq_of_isChain
    (((Cycle.chain_coe_cons _ _ _).1 hrep.ring.linked).imp fun _ _ h => h.1) ?_
  exact (List.nodup_cons.1 (Cycle.nodup_coe_iff.1 hrep.ring.nodup)).1

theorem Rep.find?_suffices (hrep : Rep header B m T R) {ps : List ℕ}
    (hring : m.linksOf.IsRing ↑(header :: ps)) (n al : ℕ) :
    ps.find? (fun p => Suffices m n al (listEntry p)) =
      (R.find? fun a => Suffices m n al a).map (· + 8) := by
  have hentry : ∀ a ∈ R, listEntry (a + 8) = a := fun a ha => by
    obtain ⟨s, hs, -⟩ := hrep.mem_ring a ha
    exact hrep.layout.listEntry_eq hs
  rw [hrep.ring_eq hring, List.find?_map]
  refine congrArg _ (List.find?_congr fun a ha => ?_)
  rw [Function.comp_apply, hentry a ha]

theorem Rep.findAligned (hrep : Rep header B m T R) (n al : ℕ) :
    Heap.findAligned header m (alignUp n 4) al (2 ^ 32) (m.next header) 0 =
      some ((R.find? fun a => Suffices m n al a).map (· + 8),
        ((R.find? fun a => Suffices m n al a).map (alignedAddr m · al)).getD
          (R.foldl (fun _ a => alignedAddr m a al) 0)) :=
  hrep.findAligned_eq _ al (fun _ ha => ha) ((Cycle.chain_coe_cons _ _ _).1 hrep.ring.linked)
    hrep.length_lt

/-- No segment passes the test: the result is the aligned address in the last one. -/
theorem Rep.allocateAligned_of_none (hrep : Rep header B h.mem T R) {n al : ℕ}
    (hfind : (R.find? fun a => Suffices h.mem n al a) = none) :
    allocateAligned header h n al = some (R.foldl (fun _ a => alignedAddr h.mem a al) 0, h) ∧
      ∀ p, ¬Takes header h.mem n al p := by
  have heq := hrep.findAligned n al
  rw [hfind, Option.map_none, Option.map_none, Option.getD_none] at heq
  refine ⟨by rw [allocateAligned, heq]; rfl, fun p ⟨r, hr⟩ => ?_⟩
  rw [heq] at hr
  cases (Prod.mk.inj (Option.some.inj hr)).1

theorem Rep.allocateAligned_of_some (hrep : Rep header B h.mem T R) {n al : ℕ}
    (hfind : (R.find? fun a => Suffices h.mem n al a) = some a) :
    allocateAligned header h n al = some (alignedAddr h.mem a al, { h with
      mem := (Heap.takeAligned header h.mem (a + 8) (alignedAddr h.mem a al)
        (alignedSize h.mem a al) (alignUp n 4)) }) ∧
      ∀ p, Takes header h.mem n al p ↔ p = a + 8 := by
  have heq := hrep.findAligned n al
  rw [hfind, Option.map_some, Option.map_some, Option.getD_some] at heq
  obtain ⟨s, ha, -⟩ := hrep.mem_ring a (List.mem_of_find?_eq_some hfind)
  refine ⟨?_, fun p => ⟨fun ⟨r, hr⟩ => ?_, fun hp => ⟨_, hp ▸ heq⟩⟩⟩
  · rw [allocateAligned, heq, Option.map_some]
    simp only [hrep.layout.listEntry_eq ha]
  · rw [heq] at hr
    exact (Option.some.inj (Prod.mk.inj (Option.some.inj hr)).1).symm

/-- None of the three computations for `node` overflows: the size is rounded up to whole words, its
    address to the alignment, and the aligned address is not past the end of its payload. -/
structure NoOverflow (m : Mem) (n k node : ℕ) : Prop where
  size : n ≤ 2 ^ 32 - 4
  address : payloadAddr m node + (2 ^ k - 1) < 2 ^ 32
  padding : alignedAddr m node (2 ^ k) ≤ payloadAddr m node + m.availableSize node

/-- What the callers rely on, the segment `node` of the heap having been taken for `n` bytes at `r`,
    and the heap being `h` afterwards. -/
structure Safe (header : ℕ) (st : State) (n k node r : ℕ) (h : Heap) : Prop where
  aligned : 2 ^ k ∣ r
  /-- The block lies in the payload of the segment taken. -/
  inside : payloadAddr st.heap.mem node ≤ r ∧
    r + n ≤ payloadAddr st.heap.mem node + st.heap.mem.availableSize node
  wellFormed : WellFormed header { st with heap := h }
  /-- The word before the block is the offset of its segment, which is in use. -/
  owner : ∃ b ∈ st.blocks, ∃ c, InChain h.mem b.1 c ∧ ¬IsFree h.mem c ∧
    c + h.mem.headerOffset c = r ∧
    h.mem (r - 4) = r - c ∧ n ≤ h.mem.availableSize c

theorem Rep.room (hrep : Rep header B m T R) (ha : T a = some s) (hf : s.free) {n k : ℕ}
    (hk : k < 32)
    (hno : NoOverflow m n k a) : Room a s (alignedAddr m a (2 ^ k)) := by
  have hoff := hrep.layout.wf.free_header ha hf
  have haddr := hno.address
  have hpad := hno.padding
  rw [hrep.payloadAddr_eq ha, hoff] at haddr hpad
  rw [hrep.availableSize_eq ha] at hpad
  have heq : alignedAddr m a (2 ^ k) = alignUp (a + 24) (2 ^ k) := by
    rw [hrep.alignedAddr_eq ha, hoff]
  refine ⟨heq ▸ le_alignUp hk haddr, hpad, ?_⟩
  have h4 : 4 ∣ a + 24 := Nat.dvd_add (hrep.layout.aligned ha) (by decide)
  rw [heq]
  by_cases hk₂ : 2 ≤ k
  · exact (Nat.pow_dvd_pow 2 hk₂).trans (dvd_alignUp _ hk)
  · -- Addresses of segments are aligned to words already.
    have hdvd : 2 ^ k ∣ a + 24 := (Nat.pow_dvd_pow 2 (by omega : k ≤ 2)).trans h4
    rwa [alignUp_eq_add hk haddr, Nat.dvd_iff_mod_eq_zero.1 hdvd, Nat.sub_zero, Nat.mod_self,
      Nat.add_zero]

/-- A block which lies in the segment taken is not the result of an overflow. -/
theorem Rep.noOverflow_of_inside (hrep : Rep header B m T R) (ha : T a = some s) {n k : ℕ}
    (hk : k < 32)
    (hinside : payloadAddr m a ≤ alignedAddr m a (2 ^ k) ∧
      alignedAddr m a (2 ^ k) + n ≤ payloadAddr m a + m.availableSize a) : NoOverflow m n k a := by
  obtain ⟨h₁, h₂⟩ := hinside
  have hbnd := hrep.layout.bound ha
  have hpay := hrep.payloadAddr_eq ha
  have havail := hrep.availableSize_eq ha
  refine ⟨by omega, ?_, by omega⟩
  -- The aligned address is not null, as the block is in the segment.
  by_contra hlt
  have h₀ := alignUp_eq_zero (a := payloadAddr m a) hk (by omega) (by omega)
  rw [alignedAddr, h₀] at h₁
  omega

/-- The segment taken is cut as it should. -/
theorem Inv.safe {st : State} (hinv : Inv header {b | b ∈ st.blocks} st.heap T R)
    (ha : T a = some s)
    (hf : s.free) {n k : ℕ} (hn : n < 2 ^ 32) (hk : k < 32) (hno : NoOverflow st.heap.mem n k a)
    (hsuff : Suffices st.heap.mem n (2 ^ k) a) :
    Safe header st n k a (alignedAddr st.heap.mem a (2 ^ k)) { st.heap with
      mem := (Heap.takeAligned header st.heap.mem (a + 8) (alignedAddr st.heap.mem a (2 ^ k))
        (alignedSize st.heap.mem a (2 ^ k)) (alignUp n 4)) } := by
  have hrep := hinv.rep
  have hbnd := hrep.layout.bound ha
  have hoff := hrep.layout.wf.free_header ha hf
  have hroom := hrep.room ha hf hk hno
  have hle := hroom.le
  have hle' := hroom.le_end
  have hsize :
      alignedSize st.heap.mem a (2 ^ k) = a + 24 + s.avail - alignedAddr st.heap.mem a (2 ^ k) := by
    rw [hrep.alignedSize_eq ha, ← hrep.alignedAddr_eq ha, hoff, wordSub_eq hle' (by omega)]
  have hround : alignUp n 4 = wholeWords n := by rw [alignUp_four n hn, if_pos hno.size]
  have hn' := le_wholeWords n
  rw [Suffices, hsize, hround] at hsuff
  rw [hsize, hround]
  -- The segment taken starts at `c`, with its payload at the aligned address.
  obtain ⟨T', R', c, u, hinv', hc, hu, hpay, hk', -⟩ :=
    hinv.takeAligned ha hf hroom (k := wholeWords n)
    (by omega) (Nat.dvd_mul_left ..)
  have hrep' := hinv'.rep
  have hpay' := hrep.payloadAddr_eq ha
  have havail := hrep.availableSize_eq ha
  have hbnd' := hrep'.layout.bound hc
  refine ⟨dvd_alignUp _ hk, ⟨by omega, by omega⟩, ⟨T', R', hinv'⟩,
    ⟨_, (hrep'.layout.wf.block hc).1, c, hrep'.inChain hc, ?_, ?_, ?_, ?_⟩⟩
  · rw [hinv'.isFree_iff hc, hu]
    exact Bool.false_ne_true
  · rw [hrep'.headerOffset_eq hc, hpay]
  · have htag := (hrep'.seg hc).tag
    rw [hpay] at htag
    exact htag.trans (by omega)
  · rw [hrep'.availableSize_eq hc]
    omega

/-- **Aligned allocation is safe** exactly when none of the computations for the segment taken
    overflows. -/
theorem allocateAligned_safe_iff {st : State} {n k : ℕ} {ps : List ℕ} (hwf : WellFormed header st)
    (hring : st.heap.mem.linksOf.IsRing ↑(header :: ps)) (hn : n < 2 ^ 32) (hk : k < 32) :
    (∃ r h', allocateAligned header st.heap n (2 ^ k) = some (r, h') ∧
      ∀ p, Takes header st.heap.mem n (2 ^ k) p → Safe header st n k (listEntry p) r h') ↔
    ∀ p, ps.find? (fun p => Suffices st.heap.mem n (2 ^ k) (listEntry p)) = some p →
      NoOverflow st.heap.mem n k (listEntry p) := by
  obtain ⟨T, R, hinv⟩ := hwf
  have hrep := hinv.rep
  rw [hrep.find?_suffices hring]
  cases hfind : R.find? fun a => Suffices st.heap.mem n (2 ^ k) a with
  | none =>
    obtain ⟨heq, htakes⟩ := hrep.allocateAligned_of_none hfind
    exact iff_of_true ⟨_, _, heq, fun p hp => absurd hp (htakes p)⟩ fun p hp => by cases hp
  | some a =>
    obtain ⟨heq, htakes⟩ := hrep.allocateAligned_of_some hfind
    obtain ⟨s, ha, hf⟩ := hrep.mem_ring a (List.mem_of_find?_eq_some hfind)
    -- The first segment that passes the test is the one that is taken.
    have hentry := hrep.layout.listEntry_eq ha
    have hsuff : Suffices st.heap.mem n (2 ^ k) a := by simpa using List.find?_some hfind
    constructor
    · rintro ⟨r, h', heq', hsafe⟩ p hp
      rw [heq] at heq'
      obtain ⟨rfl, rfl⟩ := Prod.mk.inj (Option.some.inj heq')
      obtain rfl := Option.some.inj hp
      have hinside := (hsafe _ ((htakes _).2 rfl)).inside
      rw [hentry] at hinside ⊢
      exact hrep.noOverflow_of_inside ha hk hinside
    · intro hno
      have hno := hno _ rfl
      rw [hentry] at hno
      refine ⟨_, _, heq, fun p hp => ?_⟩
      obtain rfl := (htakes p).1 hp
      rw [hentry]
      exact hinv.safe ha hf hn hk hno hsuff

/-- The free ring of a heap of one free block. -/
theorem isRing_block : (addHeapBlock 64 ⟨fun _ => 0, 0, 0⟩ 1000 2000).mem.linksOf.IsRing
    ↑([64, 1008] : List ℕ) := by
  have hr : ValidRange 64 ∅ 1000 2000 := by
    constructor <;> simp
  exact (addHeapBlock_empty_spec (h := ⟨fun _ => 0, 0, 0⟩) rfl (by decide) (by decide) (by decide)
    hr).1.rep.ring

/-- Eight bytes at a multiple of 16. -/
theorem allocateAligned_safe_sixteen :
    ∃ r h', allocateAligned 64 (addHeapBlock 64 ⟨fun _ => 0, 0, 0⟩ 1000 2000) 8 (2 ^ 4) =
      some (r, h') ∧
      ∀ p, Takes 64 (addHeapBlock 64 ⟨fun _ => 0, 0, 0⟩ 1000 2000).mem 8 (2 ^ 4) p →
        Safe 64 ⟨addHeapBlock 64 ⟨fun _ => 0, 0, 0⟩ 1000 2000, [(1000, 2000)], []⟩ 8 4
          (listEntry p) r h' := by
  refine (allocateAligned_safe_iff wellFormed_block isRing_block (by decide) (by decide)).2
    fun p hp => ?_
  have hp' : p = 1008 := by
    have hmem := List.mem_of_find?_eq_some hp
    rwa [List.mem_singleton] at hmem
  subst hp'
  constructor <;> decide +kernel

/-- A page is asked for of a block that has none: the address returned is past the end of the
    block. -/
theorem not_allocateAligned_safe :
    WellFormed 64 ⟨addHeapBlock 64 ⟨fun _ => 0, 0, 0⟩ 1000 2000, [(1000, 2000)], []⟩ ∧
      ¬∃ r h', allocateAligned 64 (addHeapBlock 64 ⟨fun _ => 0, 0, 0⟩ 1000 2000) 8 (2 ^ 12) =
        some (r, h') ∧
        ∀ p, Takes 64 (addHeapBlock 64 ⟨fun _ => 0, 0, 0⟩ 1000 2000).mem 8 (2 ^ 12) p →
          Safe 64 ⟨addHeapBlock 64 ⟨fun _ => 0, 0, 0⟩ 1000 2000, [(1000, 2000)], []⟩ 8 12
            (listEntry p) r h' := by
  refine ⟨wellFormed_block, ?_⟩
  rintro ⟨r, h', heq, hsafe⟩
  have hrun :
      (allocateAligned 64 (addHeapBlock 64 ⟨fun _ => 0, 0, 0⟩ 1000 2000) 8 (2 ^ 12)).map Prod.fst =
      some 4096 := by
    decide +kernel
  rw [heq] at hrun
  obtain rfl := Option.some.inj hrun
  have htakes : Takes 64 (addHeapBlock 64 ⟨fun _ => 0, 0, 0⟩ 1000 2000).mem 8 (2 ^ 12) 1008 :=
    ⟨4096, by decide +kernel⟩
  have hend : payloadAddr (addHeapBlock 64 ⟨fun _ => 0, 0, 0⟩ 1000 2000).mem (listEntry 1008) +
      (addHeapBlock 64 ⟨fun _ => 0, 0, 0⟩ 1000 2000).mem.availableSize (listEntry 1008) = 2000 := by
    decide +kernel
  have hle := (hsafe 1008 htakes).inside.2.trans_eq hend
  revert hle
  decide

end Heap

end DemoOs
