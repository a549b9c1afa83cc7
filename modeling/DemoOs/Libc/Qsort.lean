import DemoOs.Bytes
import DemoOs.Lib.Rearrange
import Mathlib.Tactic.Linarith

/-!
# Sorting

`qsort` (`qsort.c`) on an array in memory: insertion sort of short arrays, and of those whose
elements a partition finds in place; otherwise the elements smaller than the pivot are sorted by a
recursive call, those greater by another turn. The elements equal to the pivot are collected at both
ends of the array during the partition, and brought to its middle afterwards.

Whatever the comparison returns, `qsort` does, having rearranged the elements, and left the other
bytes as they were (`qsort_reordered`). The elements are sorted if the comparison is that of an
order (`qsort_ascending`).
-/

namespace DemoOs

/-! ## Swapping bytes -/

/-- The exchange of `*pi` and `*pj`, of `w` bytes each. -/
def swapUnit (w : ℕ) (m : Bytes) (pi pj : ℕ) : Bytes :=
  let t := m.bytes pi w
  let m := m.store pi (m.bytes pj w)
  m.store pj t

/-- `while (--i > 0)`, with `i` turns to be taken. -/
def swapLoop (w : ℕ) : ℕ → Bytes → ℕ → ℕ → Bytes
  | 0, m, _, _ => m
  | i + 1, m, pi, pj => swapLoop w i (swapUnit w m pi pj) (pi + w) (pj + w)

/-- `swapcode`, for a type of `w` bytes; the loop is taken once at least. -/
def swapcode (w : ℕ) (m : Bytes) (parmi parmj n : ℕ) : Bytes :=
  swapLoop w (max (n / w) 1) m parmi parmj

/-- `SWAPINIT`: elements are swapped by bytes (2), by words (1), or are words (0). -/
def swapinit (a es : ℕ) : ℕ := if a % 4 ≠ 0 ∨ es % 4 ≠ 0 then 2 else if es = 4 then 0 else 1

def swapfunc (m : Bytes) (a b n swaptype : ℕ) : Bytes :=
  if swaptype ≤ 1 then swapcode 4 m a b n else swapcode 1 m a b n

variable {m m' m'' : Bytes} {w p q r i j k n a a' n' t fuel x : ℕ}

/-- A copy from elsewhere. -/
theorem store_bytes_apply (src : Bytes) : m.store p (src.bytes q w) x =
    if p ≤ x ∧ x < p + w then src (q + (x - p)) else m x := by
  split_ifs with h
  · have hx : (m.store p (src.bytes q w)).bytes p w = src.bytes q w := by
      simpa using Bytes.bytes_store (m := m) (a := p) (src.bytes q w)
    have := Bytes.bytes_eq_iff.1 hx (x - p) (by omega)
    rwa [Nat.add_sub_cancel' h.1] at this
  · exact Bytes.store_of_ne (by rw [Bytes.length_bytes]; omega)

/-- One unit is exchanged. -/
theorem swapUnit_eq (hapart : Exchangeable p q w) : swapUnit w m p q = m ∘ exchange p q w := by
  funext x
  rw [swapUnit, store_bytes_apply, store_bytes_apply, Function.comp_apply]
  by_cases hq : q ≤ x ∧ x < q + w
  · rw [if_pos hq, exchange_right hapart hq.1 hq.2]
  · by_cases hp : p ≤ x ∧ x < p + w
    · rw [if_neg hq, if_pos hp, exchange_left hp.1 hp.2]
    · rw [if_neg hq, if_neg hp, exchange_of_not hp hq]

/-- The units are exchanged one by one. -/
theorem swapLoop_eq (hapart : Exchangeable p q (i * w)) :
    swapLoop w i m p q = m ∘ exchange p q (i * w) := by
  induction i generalizing m p q with
  | zero => simp [swapLoop]
  | succ i ih =>
    have hlen : (i + 1) * w = w + i * w := by rw [Nat.succ_mul, Nat.add_comm]
    rw [hlen] at hapart ⊢
    rw [swapLoop, swapUnit_eq (hapart.mono (Nat.le_add_right ..)), ih hapart.rest,
      Function.comp_assoc, exchange_comp hapart]

/-- `swapcode` exchanges two areas that do not overlap. -/
theorem swapcode_eq (hw : w ∣ n) (hn : 0 < n) (hapart : Exchangeable p q n) :
    swapcode w m p q n = m ∘ exchange p q n := by
  have hpos : 1 ≤ n / w := Nat.div_pos (Nat.le_of_dvd hn hw) (Nat.pos_of_dvd_of_pos hw hn)
  rw [swapcode, Nat.max_eq_left hpos, swapLoop_eq (by rwa [Nat.div_mul_cancel hw]),
    Nat.div_mul_cancel hw]

/-! ## The array -/

/-- What the calls of `qsort` for an array share: its address, the size of its elements, and their
    comparison. The array is smaller than half the address space, so that distances in it are
    exact. -/
structure Elements where
  aa : ℕ
  es : ℕ
  cmp : (Fin es → UInt8) → (Fin es → UInt8) → ℤ
  es_pos : 0 < es

namespace Elements

variable (S : Elements)

/-- The address of an element. -/
def addr (i : ℕ) : ℕ := S.aa + i * S.es

/-- The bytes of an element. -/
def elem (m : Bytes) (i : ℕ) : Fin S.es → UInt8 := fun j => m (S.addr i + j)

/-- `cmp` of two pointers to elements. -/
def compare (m : Bytes) (i j : ℕ) : ℤ := S.cmp (S.elem m i) (S.elem m j)

def yswap (t : ℕ) (m : Bytes) (a b : ℕ) : Bytes :=
  if t = 0 then swapUnit 4 m (S.addr a) (S.addr b) else swapfunc m (S.addr a) (S.addr b) S.es t

/-- `vecswap`, of `n` elements. -/
def vecswap (t : ℕ) (m : Bytes) (a b n : ℕ) : Bytes :=
  if n * S.es > 0 then swapfunc m (S.addr a) (S.addr b) (n * S.es) t else m

/-- `med3`, of pointers to elements. -/
def med3 (m : Bytes) (a b c : ℕ) : ℕ :=
  if S.compare m a b < 0 then
    (if S.compare m b c < 0 then b else if S.compare m a c < 0 then c else a)
  else (if S.compare m b c > 0 then b else if S.compare m a c < 0 then a else c)

/-! ## Insertion sort -/

/-- `for (pl = pm; pl > a && cmp(pl - es, pl) > 0; pl -= es)`, with `pl` `k` elements from `a`. -/
def sink (t a : ℕ) : ℕ → Bytes → Bytes
  | 0, m => m
  | k + 1, m => if S.compare m (a + k) (a + k + 1) > 0
      then sink t a k (S.yswap t m (a + k + 1) (a + k)) else m

/-- `for (pm = a + es; pm < a + n * es; pm += es)`, of `n - 1` turns. -/
def insertLoop (t a : ℕ) : ℕ → Bytes → Bytes
  | 0, m => m
  | k + 1, m => S.sink t a (k + 1) (insertLoop t a k m)

/-! ## Partition -/

/-- The pointers of the partition, and whether anything was swapped. -/
structure Part where
  m : Bytes
  pa : ℕ
  pb : ℕ
  pc : ℕ
  pd : ℕ
  swap_cnt : Bool

/-- The first `while`, with `k` elements from `pb` to `pc`. -/
def scanUp (t a : ℕ) : ℕ → Part → Part
  | 0, s => s
  | k + 1, s =>
    if s.pb ≤ s.pc ∧ S.compare s.m s.pb a ≤ 0 then
      if S.compare s.m s.pb a = 0 then
        scanUp t a k { s with
          m := S.yswap t s.m s.pa s.pb, pa := s.pa + 1, pb := s.pb + 1, swap_cnt := true }
      else scanUp t a k { s with pb := s.pb + 1 }
    else s

/-- The second `while`. -/
def scanDown (t a : ℕ) : ℕ → Part → Part
  | 0, s => s
  | k + 1, s =>
    if s.pb ≤ s.pc ∧ S.compare s.m s.pc a ≥ 0 then
      if S.compare s.m s.pc a = 0 then
        scanDown t a k { s with
          m := S.yswap t s.m s.pc s.pd, pd := s.pd - 1, pc := s.pc - 1, swap_cnt := true }
      else scanDown t a k { s with pc := s.pc - 1 }
    else s

/-- `for (;;)`. -/
def partition (t a : ℕ) : ℕ → Part → Option Part
  | 0, _ => none
  | fuel + 1, s =>
    let s := S.scanUp t a (s.pc + 1 - s.pb) s
    let s := S.scanDown t a (s.pc + 1 - s.pb) s
    if s.pb > s.pc then some s
    else partition t a fuel
      { s with m := S.yswap t s.m s.pb s.pc, pb := s.pb + 1, pc := s.pc - 1, swap_cnt := true }

/-! ## Sorting -/

/-- The element taken for the pivot. -/
def pivot (m : Bytes) (a n : ℕ) : ℕ :=
  let pm := a + n / 2
  if n > 7 then
    let pl := a
    let pn := a + (n - 1)
    if n > 40 then
      let d := n / 8
      let pl := S.med3 m pl (pl + d) (pl + 2 * d)
      let pm := S.med3 m (pm - d) pm (pm + d)
      let pn := S.med3 m (pn - 2 * d) (pn - d) pn
      S.med3 m pl pm pn
    else S.med3 m pl pm pn
  else pm

/-- `qsort` of `n` elements from `a` on, the number of its turns and calls within each other being
    bounded by `fuel`. -/
def qsort : ℕ → Bytes → ℕ → ℕ → Option Bytes
  | 0, _, _, _ => none
  | fuel + 1, m, a, n =>
    let t := swapinit (S.addr a) S.es
    if n < 7 then some (S.insertLoop t a (n - 1) m)
    else
      let m := S.yswap t m a (S.pivot m a n)
      (S.partition t a (n + 1) ⟨m, a + 1, a + 1, a + (n - 1), a + (n - 1), false⟩).bind fun s =>
        if s.swap_cnt = false then some (S.insertLoop t a (n - 1) s.m)
        else
          let pn := a + n
          let r := min (s.pa - a) (s.pb - s.pa)
          let m := S.vecswap t s.m a (s.pb - r) r
          let r := min (s.pd - s.pc) (pn - s.pd - 1)
          let m := S.vecswap t m s.pb (pn - r) r
          let r := s.pb - s.pa
          (if r > 1 then qsort fuel m a r else some m).bind fun m =>
            let r := s.pd - s.pc
            if r > 1 then qsort fuel m (pn - r) r else some m

/-! ## Swapping elements -/

/-- The elements can be swapped so. -/
def Suits (t : ℕ) : Prop := (t ≤ 1 → 4 ∣ S.es) ∧ (t = 0 → S.es = 4)

/-- Only the `n` elements from `a` on may differ, and these but in their order. -/
def Reordered (a n : ℕ) (m m' : Bytes) : Prop :=
  Rearranges a (a + n) (S.elem m) (S.elem m') ∧ ∀ x, x < S.addr a ∨ S.addr (a + n) ≤ x → m' x = m x

variable {S}

/-- What `SWAPINIT` chooses suits the elements. -/
theorem suits_swapinit : S.Suits (swapinit x S.es) := by
  rw [swapinit]
  split_ifs with h h₄
  · exact ⟨fun h => absurd h (by decide), fun h => absurd h (by decide)⟩
  · exact ⟨fun _ => by omega, fun _ => h₄⟩
  · exact ⟨fun _ => by omega, fun h => absurd h (by decide)⟩

/-- Addresses grow with the places. -/
theorem addr_mono (h : i ≤ j) : S.addr i ≤ S.addr j :=
  Nat.add_le_add_left (Nat.mul_le_mul_right _ h) _

/-- Exchanging the bytes of `n` elements exchanges the elements. -/
theorem elem_exchange (hapart : Exchangeable p q n) :
    S.elem (m ∘ exchange (S.addr p) (S.addr q) (n * S.es)) = S.elem m ∘ exchange p q n := by
  funext i j
  exact congrArg m (exchange_scale hapart j.2)

/-- Places that are apart have addresses that are. -/
theorem apart_addr (hapart : Exchangeable p q n) :
    Exchangeable (S.addr p) (S.addr q) (n * S.es) := by
  have h : ∀ {i j}, i + n ≤ j → S.addr i + n * S.es ≤ S.addr j := fun hij => by
    have := addr_mono (S := S) hij
    rwa [addr, Nat.add_mul, ← Nat.add_assoc] at this
  exact hapart.imp (fun h => by rw [h]) (Or.imp h h)

/-- `vecswap` exchanges two stretches of elements. -/
theorem vecswap_eq (ht : S.Suits t) (hapart : Exchangeable p q n) :
    S.vecswap t m p q n = m ∘ exchange (S.addr p) (S.addr q) (n * S.es) := by
  rw [vecswap]
  split_ifs with hn
  · rw [swapfunc]
    split_ifs with ht'
    · exact swapcode_eq ((ht.1 ht').mul_left n) hn (apart_addr hapart)
    · exact swapcode_eq (Nat.one_dvd _) hn (apart_addr hapart)
  · rw [Nat.eq_zero_of_not_pos hn, exchange_zero]
    rfl

/-- `swap` exchanges two elements. -/
theorem yswap_eq (ht : S.Suits t) (hapart : Exchangeable p q 1) :
    S.yswap t m p q = S.vecswap t m p q 1 := by
  rw [vecswap_eq ht hapart, yswap]
  have hes := apart_addr (S := S) hapart
  rw [Nat.one_mul] at hes ⊢
  split_ifs with h₀
  · rw [ht.2 h₀] at hes ⊢
    exact swapUnit_eq hes
  · rw [swapfunc]
    split_ifs with ht'
    · exact swapcode_eq (ht.1 ht') S.es_pos hes
    · exact swapcode_eq (Nat.one_dvd _) S.es_pos hes

namespace Reordered

theorem refl : S.Reordered a n m m := ⟨.refl _, fun _ _ => rfl⟩

/-- One after the other. -/
theorem trans (h₁ : S.Reordered a n m m') (h₂ : S.Reordered a n m' m'') : S.Reordered a n m m'' :=
  ⟨h₁.1.trans h₂.1, fun x hx => (h₂.2 x hx).trans (h₁.2 x hx)⟩

/-- And of a longer stretch. -/
theorem mono (h : S.Reordered a n m m') (hlo : a' ≤ a) (hhi : a + n ≤ a' + n') :
    S.Reordered a' n' m m' := by
  refine ⟨h.1.mono hlo hhi, fun x hx => h.2 x (hx.imp (fun hx => ?_) fun hx => ?_)⟩
  · exact hx.trans_le (addr_mono hlo)
  · exact (addr_mono hhi).trans hx

/-- `vecswap` puts elements into another order. -/
theorem vecswap (ht : S.Suits t) (hapart : Exchangeable p q k) (hp : a ≤ p) (hp' : p + k ≤ a + n)
    (hq : a ≤ q)
    (hq' : q + k ≤ a + n) : S.Reordered a n m (S.vecswap t m p q k) := by
  rw [vecswap_eq ht hapart]
  refine ⟨elem_exchange (S := S) hapart ▸ .exchange hapart hp hp' hq hq', fun x hx => ?_⟩
  have hend : ∀ {i}, a ≤ i → i + k ≤ a + n → ¬(S.addr i ≤ x ∧ x < S.addr i + k * S.es) := by
    rintro i hi hi' ⟨h, h'⟩
    have hlo := addr_mono (S := S) hi
    have hhi := addr_mono (S := S) hi'
    rw [addr, Nat.add_mul, ← Nat.add_assoc] at hhi
    exact hx.elim (fun hx => by omega) fun hx => Nat.not_lt.2 (hhi.trans hx) h'
  exact congrArg m (exchange_of_not (hend hp hp') (hend hq hq'))

/-- So does `swap`. -/
theorem yswap (ht : S.Suits t) (hp : a ≤ p) (hp' : p < a + n) (hq : a ≤ q) (hq' : q < a + n) :
    S.Reordered a n m (S.yswap t m p q) := by
  have hapart : Exchangeable p q 1 := by unfold Exchangeable; omega
  rw [yswap_eq ht hapart]
  exact vecswap ht hapart hp hp' hq hq'

end Reordered

/-- The elements after an exchange. -/
theorem elem_yswap (ht : S.Suits t) : S.elem (S.yswap t m p q) i =
    S.elem m (if i = p then q else if i = q then p else i) := by
  have hapart : Exchangeable p q 1 := by unfold Exchangeable; omega
  rw [yswap_eq ht hapart, vecswap_eq ht hapart, elem_exchange hapart, Function.comp_apply,
    exchange_one]

/-! ## Insertion -/

/-- So does one turn of the insertion sort. -/
theorem sink_reordered (ht : S.Suits t) : S.Reordered a (k + 1) m (S.sink t a k m) := by
  induction k generalizing m with
  | zero => exact .refl
  | succ k ih =>
    rw [sink]
    split_ifs
    · have hswap : S.Reordered a (k + 1 + 1) m (S.yswap t m (a + k + 1) (a + k)) :=
        .yswap ht (by omega) (by omega) (by omega) (by omega)
      exact hswap.trans (ih.mono (Nat.le_refl a) (by omega))
    · exact .refl

/-- And the whole of it. -/
theorem insertLoop_reordered (ht : S.Suits t) : S.Reordered a (k + 1) m (S.insertLoop t a k m) := by
  induction k with
  | zero => exact .refl
  | succ k ih => exact (ih.mono (Nat.le_refl a) (by omega)).trans (sink_reordered ht)

/-- The comparison is that of an order: it answers the other way when asked the other way, and what
    is at most something at most a third is at most the third. -/
structure Consistent (S : Elements) : Prop where
  swap : ∀ x y, S.cmp x y ≤ 0 ↔ 0 ≤ S.cmp y x
  trans : ∀ x y z, S.cmp x y ≤ 0 → S.cmp y z ≤ 0 → S.cmp x z ≤ 0

/-- The elements from `a` on ascend. -/
abbrev Sorted (S : Elements) (a n : ℕ) (m : Bytes) : Prop :=
  Ascending (fun x y => S.cmp x y ≤ 0) a (a + n) (S.elem m)

/-- The elements before the end ascend, but for the one at `p`, which is smaller than those after
    it. -/
structure Sinking (S : Elements) (a p k : ℕ) (m : Bytes) : Prop where
  others : ∀ i j, a ≤ i → i < j → j ≤ k → i ≠ p → j ≠ p → S.compare m i j ≤ 0
  after : ∀ j, p < j → j ≤ k → S.compare m p j ≤ 0

/-- An element that has sunk to its place leaves a sorted stretch. -/
theorem Sinking.sorted (hcmp : S.Consistent) (ht : S.Suits t) {b : ℕ} (h : S.Sinking a (a + k) b m)
    (hk : a + k ≤ b) :
    S.Sorted a (b + 1 - a) (S.sink t a k m) := by
  -- By induction on the places in front of the element that sinks.
  induction k generalizing m with
  | zero =>
    intro i j hi hij hj
    by_cases hia : i = a
    · exact hia ▸ h.after j (by omega) (by omega)
    · exact h.others i j hi hij (by omega) (by omega) (by omega)
  | succ k ih =>
    rw [sink]
    split_ifs with hgt
    · -- The element goes one place down, where it is smaller than that it was swapped with.
      refine ih ⟨fun i j hi hij hj hip hjp => ?_, fun j hj hj' => ?_⟩ (by omega)
      · rw [compare, elem_yswap ht, elem_yswap ht, if_neg hip, if_neg hjp]
        split_ifs <;> exact h.others _ _ (by omega) (by omega) (by omega) (by omega) (by omega)
      · rw [compare, elem_yswap ht, elem_yswap ht, if_neg (by omega), if_pos rfl]
        split_ifs with hj₁ hj₂
        · exact (hcmp.swap _ _).2 (Int.le_of_lt hgt)
        · omega
        · exact h.after j (by omega) hj'
    · -- The one before is not greater, nor are those before that.
      intro i j hi hij hj
      have hle : S.compare m (a + k) (a + k + 1) ≤ 0 := Int.not_lt.1 hgt
      by_cases hip : i = a + (k + 1)
      · exact hip ▸ h.after j (by omega) (by omega)
      · by_cases hjp : j = a + (k + 1)
        · subst hjp
          by_cases hik : i = a + k
          · exact hik ▸ hle
          · exact hcmp.trans _ _ _ (h.others i (a + k) hi (by omega) (by omega) hip (by omega)) hle
        · exact h.others i j hi hij (by omega) hip hjp

/-- The insertion sort sorts. -/
theorem insertLoop_sorted (hcmp : S.Consistent) (ht : S.Suits t) :
    S.Sorted a (k + 1) (S.insertLoop t a k m) := by
  induction k with
  | zero => exact .of_le (Nat.le_refl _)
  | succ k ih =>
    have hsinking : S.Sinking a (a + (k + 1)) (a + (k + 1)) (S.insertLoop t a k m) :=
      ⟨fun i j hi hij hj _ hjp => ih i j hi hij (by omega), fun j hj hj' => by omega⟩
    have := hsinking.sorted hcmp ht (Nat.le_refl _)
    rwa [show a + (k + 1) + 1 - a = k + 1 + 1 by omega] at this

/-! ## Partition -/

/-- From the pivot on there are elements equal to it, then smaller ones, those not looked at yet,
    greater ones, and again equal ones. -/
structure Parted (S : Elements) (a n : ℕ) (m₀ m : Bytes) (pa pb pc pd : ℕ) : Prop where
  lt_pa : a < pa
  pa_le : pa ≤ pb
  pb_le : pb ≤ pc + 1
  pc_le : pc ≤ pd
  pd_lt : pd < a + n
  eq_left : ∀ i, a < i → i < pa → S.compare m i a = 0
  less : ∀ i, pa ≤ i → i < pb → S.compare m i a < 0
  greater : ∀ i, pc < i → i ≤ pd → S.compare m i a > 0
  eq_right : ∀ i, pd < i → i < a + n → S.compare m i a = 0
  reordered : S.Reordered a n m₀ m

variable {m₀ : Bytes} {pa pb pc pd : ℕ} {swap_cnt : Bool}

/-- Comparisons with the pivot after an exchange of others. -/
theorem compare_yswap (ht : S.Suits t) (hp : a < p) (hq : a < q) : S.compare (S.yswap t m p q) i a =
    S.compare m (if i = p then q else if i = q then p else i) a := by
  have ha : S.elem (S.yswap t m p q) a = S.elem m a := by
    rw [elem_yswap ht, if_neg (by omega), if_neg (by omega)]
  rw [compare, ha, elem_yswap ht, compare]

namespace Parted

/-- An element equal to the pivot goes to the left end. -/
theorem equal_up (h : S.Parted a n m₀ m pa pb pc pd) (ht : S.Suits t) (hle : pb ≤ pc)
    (heq : S.compare m pb a = 0) :
    S.Parted a n m₀ (S.yswap t m pa pb) (pa + 1) (pb + 1) pc pd := by
  obtain ⟨hpa, hpab, hpbc, hpcd, hpd, hleft, hless, hgreater, hright, hre⟩ := h
  have hcmp := fun i => compare_yswap (m := m) (i := i) ht hpa (hpa.trans_le hpab)
  refine ⟨by omega, by omega, by omega, hpcd, hpd, fun i hi hi' => ?_, fun i hi hi' => ?_,
    fun i hi hi' => ?_, fun i hi hi' => ?_,
    hre.trans (.yswap ht (by omega) (by omega) (by omega) (by omega))⟩ <;>
      rw [hcmp]
  · split_ifs with h₁ h₂
    · exact heq
    · omega
    · exact hleft i hi (by omega)
  · split_ifs with h₁ h₂
    · omega
    · exact hless pa (Nat.le_refl _) (by omega)
    · exact hless i (by omega) (by omega)
  · rw [if_neg (by omega), if_neg (by omega)]
    exact hgreater i hi hi'
  · rw [if_neg (by omega), if_neg (by omega)]
    exact hright i hi hi'

/-- A less element on the left is where it should be. -/
theorem less_up (h : S.Parted a n m₀ m pa pb pc pd) (hle : pb ≤ pc) (hlt : S.compare m pb a < 0) :
    S.Parted a n m₀ m pa (pb + 1) pc pd := by
  refine ⟨h.lt_pa, Nat.le_succ_of_le h.pa_le, Nat.succ_le_succ hle, h.pc_le, h.pd_lt, h.eq_left,
    fun i hi hi' => ?_, h.greater, h.eq_right, h.reordered⟩
  rcases Nat.lt_succ_iff_lt_or_eq.1 hi' with hi' | rfl
  · exact h.less i hi hi'
  · exact hlt

/-- An element equal to the pivot goes to the right end. -/
theorem equal_down (h : S.Parted a n m₀ m pa pb pc pd) (ht : S.Suits t) (hle : pb ≤ pc)
    (heq : S.compare m pc a = 0) :
    S.Parted a n m₀ (S.yswap t m pc pd) pa pb (pc - 1) (pd - 1) := by
  obtain ⟨hpa, hpab, hpbc, hpcd, hpd, hleft, hless, hgreater, hright, hre⟩ := h
  have hcmp :=
    fun i => compare_yswap (m := m) (i := i) (p := pc) (q := pd) (a := a) ht (by omega) (by omega)
  refine ⟨hpa,
    hpab, by omega, by omega, by omega, fun i hi hi' => ?_, fun i hi hi' => ?_, fun i hi hi' => ?_,
    fun i hi hi' => ?_, hre.trans (.yswap ht (by omega) (by omega) (by omega) (by omega))⟩ <;>
      rw [hcmp]
  · rw [if_neg (by omega), if_neg (by omega)]
    exact hleft i hi hi'
  · rw [if_neg (by omega), if_neg (by omega)]
    exact hless i hi hi'
  · split_ifs with h₁ h₂
    · exact hgreater pd (by omega) (Nat.le_refl _)
    · omega
    · exact hgreater i (by omega) (by omega)
  · split_ifs with h₁ h₂
    · have : pd = pc := by omega
      exact this ▸ heq
    · exact heq
    · exact hright i (by omega) hi'

/-- A greater element on the right is where it should be. -/
theorem greater_down (h : S.Parted a n m₀ m pa pb pc pd) (hle : pb ≤ pc)
    (hgt : S.compare m pc a > 0) :
    S.Parted a n m₀ m pa pb (pc - 1) pd := by
  have hpos : 0 < pc := (Nat.zero_lt_of_lt h.lt_pa).trans_le (h.pa_le.trans hle)
  refine ⟨h.lt_pa, h.pa_le, by omega, (Nat.sub_le ..).trans h.pc_le, h.pd_lt, h.eq_left, h.less,
    fun i hi hi' => ?_, h.eq_right, h.reordered⟩
  rcases Nat.eq_or_lt_of_le (Nat.le_of_pred_lt hi) with rfl | hi
  · exact hgt
  · exact h.greater i hi hi'

/-- A greater element is swapped for a smaller one. -/
theorem both (h : S.Parted a n m₀ m pa pb pc pd) (ht : S.Suits t) (hle : pb ≤ pc)
    (hgt : S.compare m pb a > 0)
    (hlt : S.compare m pc a < 0) : S.Parted a n m₀ (S.yswap t m pb pc) pa (pb + 1) (pc - 1) pd := by
  have hne : pb ≠ pc := fun heq => by
    rw [heq] at hgt
    omega
  obtain ⟨hpa, hpab, hpbc, hpcd, hpd, hleft, hless, hgreater, hright, hre⟩ := h
  have hcmp :=
    fun i => compare_yswap (m := m) (i := i) (p := pb) (q := pc) (a := a) ht (by omega) (by omega)
  refine ⟨hpa, by omega, by omega, by omega, hpd, fun i hi hi' => ?_, fun i hi hi' => ?_,
    fun i hi hi' => ?_, fun i hi hi' => ?_,
    hre.trans (.yswap ht (by omega) (by omega) (by omega) (by omega))⟩ <;>
      rw [hcmp]
  · rw [if_neg (by omega), if_neg (by omega)]
    exact hleft i hi hi'
  · split_ifs with h₁ h₂
    · exact hlt
    · omega
    · exact hless i hi (by omega)
  · split_ifs with h₁ h₂
    · omega
    · exact hgt
    · exact hgreater i (by omega) hi'
  · rw [if_neg (by omega), if_neg (by omega)]
    exact hright i hi hi'

/-- After the first scan, the element at `pb` is greater. -/
theorem scanUp (h : S.Parted a n m₀ m pa pb pc pd) (ht : S.Suits t) (swap_cnt : Bool)
    (hk : k = pc + 1 - pb) :
    ∃ m' pa' pb' swap_cnt', S.scanUp t a k ⟨m, pa, pb, pc, pd, swap_cnt⟩ =
      ⟨m', pa', pb', pc, pd, swap_cnt'⟩ ∧
      S.Parted a n m₀ m' pa' pb' pc pd ∧ pb ≤ pb' ∧ (pb' ≤ pc → S.compare m' pb' a > 0) := by
  induction k generalizing m pa pb swap_cnt with
  | zero => exact ⟨m, pa, pb, swap_cnt, rfl, h, Nat.le_refl _, fun hle => by omega⟩
  | succ k ih =>
    rw [Elements.scanUp]
    dsimp only
    split_ifs with hcond heq
    · obtain ⟨m', pa', pb', swap_cnt', hscan, hparted, hpb, hgt⟩ :=
        ih (h.equal_up ht hcond.1 heq) true (by omega)
      exact ⟨m', pa', pb', swap_cnt', hscan, hparted, (Nat.le_succ _).trans hpb, hgt⟩
    · obtain ⟨m', pa', pb', swap_cnt', hscan, hparted, hpb, hgt⟩ :=
        ih (h.less_up hcond.1 (lt_of_le_of_ne hcond.2 heq)) swap_cnt (by omega)
      exact ⟨m', pa', pb', swap_cnt', hscan, hparted, (Nat.le_succ _).trans hpb, hgt⟩
    · exact ⟨m, pa, pb, swap_cnt, rfl, h, Nat.le_refl _, fun hle => by omega⟩

/-- After the second scan, the element at `pc` is smaller, and that at `pb` greater still. -/
theorem scanDown (h : S.Parted a n m₀ m pa pb pc pd) (ht : S.Suits t) (swap_cnt : Bool)
    (hk : k = pc + 1 - pb)
    (hup : pb ≤ pc → S.compare m pb a > 0) :
    ∃ m' pc' pd' swap_cnt', S.scanDown t a k ⟨m, pa, pb, pc, pd, swap_cnt⟩ =
      ⟨m', pa, pb, pc', pd', swap_cnt'⟩ ∧
      S.Parted a n m₀ m' pa pb pc' pd' ∧ pc' ≤ pc ∧
      (pb ≤ pc' → S.compare m' pb a > 0 ∧ S.compare m' pc' a < 0) := by
  induction k generalizing m pc pd swap_cnt with
  | zero => exact ⟨m, pc, pd, swap_cnt, rfl, h, Nat.le_refl _, fun hle => by omega⟩
  | succ k ih =>
    have hpb : a < pb := h.lt_pa.trans_le h.pa_le
    have hpcd := h.pc_le
    rw [Elements.scanDown]
    dsimp only
    split_ifs with hcond heq
    · have hup' : pb ≤ pc - 1 → S.compare (S.yswap t m pc pd) pb a > 0 := fun hle => by
        -- The element at `pb` is not among those swapped.
        rw [compare_yswap ht (by omega) (by omega), if_neg (by omega), if_neg (by omega)]
        exact hup hcond.1
      obtain ⟨m', pc', pd', swap_cnt', hscan, hparted, hpc, hends⟩ :=
        ih (h.equal_down ht hcond.1 heq) true (by omega) hup'
      exact ⟨m', pc', pd', swap_cnt', hscan, hparted, hpc.trans (Nat.sub_le ..), hends⟩
    · obtain ⟨m', pc', pd', swap_cnt', hscan, hparted, hpc, hends⟩ :=
        ih (h.greater_down hcond.1 (lt_of_le_of_ne hcond.2 (Ne.symm heq))) swap_cnt
          (by omega) fun _ => hup hcond.1
      exact ⟨m', pc', pd', swap_cnt', hscan, hparted, hpc.trans (Nat.sub_le ..), hends⟩
    · exact ⟨m, pc, pd, swap_cnt, rfl, h, Nat.le_refl _, fun hle => ⟨hup hle, by omega⟩⟩

/-- A partition ends, every element having been looked at. -/
theorem partition (h : S.Parted a n m₀ m pa pb pc pd) (ht : S.Suits t) (swap_cnt : Bool)
    (hfuel : pc + 1 - pb < fuel) :
    ∃ m' pa' pc' pd' swap_cnt', S.partition t a fuel ⟨m, pa, pb, pc, pd, swap_cnt⟩ =
      some ⟨m', pa', pc' + 1, pc', pd', swap_cnt'⟩ ∧ S.Parted a n m₀ m' pa' (pc' + 1) pc' pd' := by
  induction fuel generalizing m pa pb pc pd swap_cnt with
  | zero => omega
  | succ fuel ih =>
    obtain ⟨m₁, pa₁, pb₁, swap_cnt₁, hup, h₁, hpb, hgt⟩ := h.scanUp ht swap_cnt rfl
    obtain ⟨m₂, pc₂, pd₂, swap_cnt₂, hdown, h₂, hpc, hends⟩ := h₁.scanDown ht swap_cnt₁ rfl hgt
    rw [Elements.partition]
    dsimp only
    rw [hup]
    dsimp only
    rw [hdown]
    dsimp only
    split_ifs with hdone
    · have heq : pb₁ = pc₂ + 1 := Nat.le_antisymm h₂.pb_le hdone
      subst heq
      exact ⟨m₂, pa₁, pc₂, pd₂, swap_cnt₂, rfl, h₂⟩
    · have hle := Nat.not_lt.1 hdone
      obtain ⟨hgt', hlt'⟩ := hends hle
      exact ih (h₂.both ht hle hgt' hlt') true (by omega)

end Parted

/-! ## Sorting -/

/-- The `l` elements from `a` on are smaller than `v`, the `g` elements at the end are greater,
    those between are equal to it. -/
structure Split (S : Elements) (a n l g : ℕ) (v : Fin S.es → UInt8) (m : Bytes) : Prop where
  lt : l + g < n
  less : ∀ i, a ≤ i → i < a + l → S.cmp (S.elem m i) v < 0
  equal : ∀ i, a + l ≤ i → i < a + n - g → S.cmp (S.elem m i) v = 0 ∨ S.elem m i = v
  greater : ∀ i, a + n - g ≤ i → i < a + n → S.cmp (S.elem m i) v > 0

/-- The elements equal to the pivot are brought to the middle. -/
theorem Parted.split (h : S.Parted a n m₀ m pa (pc + 1) pc pd) (ht : S.Suits t) {r r' : ℕ}
    (hr : r = min (pa - a) (pc + 1 - pa)) (hr' : r' = min (pd - pc) (a + n - pd - 1))
    (hm' : m' = S.vecswap t m a (pc + 1 - r) r)
    (hm'' : m'' = S.vecswap t m' (pc + 1) (a + n - r') r') :
    S.Split a n (pc + 1 - pa) (pd - pc) (S.elem m a) m'' ∧ S.Reordered a n m₀ m'' := by
  obtain ⟨hpa, hpab, -, hpcd, hpd, hleft, hless, hgreater, hright, hre⟩ := h
  have hapart : Exchangeable a (pc + 1 - r) r := by unfold Exchangeable; omega
  have hapart' : Exchangeable (pc + 1) (a + n - r') r' := by unfold Exchangeable; omega
  have helem' : S.elem m' = S.elem m ∘ exchange a (pc + 1 - r) r := by
    rw [hm', vecswap_eq ht hapart, elem_exchange hapart]
  have helem'' : S.elem m'' = S.elem m' ∘ exchange (pc + 1) (a + n - r') r' := by
    rw [hm'', vecswap_eq ht hapart', elem_exchange hapart']
  -- What the second exchange does not move, and what the first does not.
  have hlow : ∀ i, i < pc + 1 → S.elem m'' i = S.elem m (exchange a (pc + 1 - r) r i) :=
    fun i hi => by
    rw [helem'', Function.comp_apply, exchange_of_not (by omega) (by omega), helem',
      Function.comp_apply]
  have hhigh : ∀ i, pc + 1 ≤ i → S.elem m' i = S.elem m i := fun i hi => by
    rw [helem', Function.comp_apply, exchange_of_not (by omega) (by omega)]
  obtain ⟨hless', hequal⟩ :=
    exchange_ends (f := S.elem m) (P := fun x => S.cmp x (S.elem m a) = 0 ∨ x = S.elem m a)
    (Q := fun x => S.cmp x (S.elem m a) < 0) hpa.le hpab hr
    (fun i hi hi' => (Nat.eq_or_lt_of_le hi).elim (fun heq => .inr (heq ▸ rfl)) fun hi =>
      .inl (hleft i hi hi')) hless
  obtain ⟨hequal', hgreater'⟩ := exchange_ends (f := S.elem m')
    (P := fun x => S.cmp x (S.elem m a) > 0) (Q := fun x => S.cmp x (S.elem m a) = 0 ∨
      x = S.elem m a)
    (Nat.succ_le_succ hpcd) hpd (r := r') (by omega)
    (fun i hi hi' => hhigh i hi ▸ hgreater i hi (Nat.le_of_lt_succ hi'))
    (fun i hi hi' => .inl (hhigh i (by omega) ▸ hright i hi hi'))
  refine ⟨⟨by omega, fun i hi hi' => ?_, fun i hi hi' => ?_, fun i hi hi' => ?_⟩, ?_⟩
  · rw [hlow i (by omega)]
    exact hless' i hi hi'
  · by_cases hpc : i < pc + 1
    · rw [hlow i hpc]
      exact hequal i hi hpc
    · rw [helem'']
      exact hequal' i (by omega) (by omega)
  · rw [helem'']
    exact hgreater' i (by omega) hi'
  · have hfirst : S.Reordered a n m m' :=
      hm' ▸ .vecswap ht hapart (by omega) (by omega) (by omega) (by omega)
    have hsecond : S.Reordered a n m' m'' :=
      hm'' ▸ .vecswap ht hapart' (by omega) (by omega) (by omega) (by omega)
    exact (hre.trans hfirst).trans hsecond

namespace Split

variable {l g : ℕ} {v : Fin S.es → UInt8}

/-- The elements less than the pivot may be put into another order. -/
theorem left (h : S.Split a n l g v m) (hre : S.Reordered a l m m') : S.Split a n l g v m' := by
  have hlt := h.lt
  refine ⟨hlt, fun i hi hi' => ?_, fun i hi hi' => ?_, fun i hi hi' => ?_⟩
  · exact hre.1.all (P := fun x => S.cmp x v < 0) h.less hi hi'
  · rw [hre.1.eq_of_not (.inr hi)]
    exact h.equal i hi hi'
  · rw [hre.1.eq_of_not (.inr (by omega))]
    exact h.greater i hi hi'

/-- And so may the greater ones. -/
theorem right (h : S.Split a n l g v m) (hre : S.Reordered (a + n - g) g m m') :
    S.Split a n l g v m' := by
  have hlt := h.lt
  have hend : a + n - g + g = a + n := by omega
  refine ⟨hlt, fun i hi hi' => ?_, fun i hi hi' => ?_, fun i hi hi' => ?_⟩
  · rw [hre.1.eq_of_not (.inl (by omega))]
    exact h.less i hi hi'
  · rw [hre.1.eq_of_not (.inl hi')]
    exact h.equal i hi hi'
  · exact hre.1.all (P := fun x => S.cmp x v > 0) (fun i hi hi' => h.greater i hi (hend ▸ hi')) hi
      (hend.symm ▸ hi')

/-- With both ends sorted, everything is. -/
theorem sorted (h : S.Split a n l g v m) (hcmp : S.Consistent) (hleft : S.Sorted a l m)
    (hright : S.Sorted (a + n - g) g m) : S.Sorted a n m := by
  have hlt := h.lt
  have hrefl : S.cmp v v ≤ 0 := by
    rcases Int.le_total (S.cmp v v) 0 with hle | hle
    · exact hle
    · exact (hcmp.swap v v).2 hle
  have hlow : ∀ i, a ≤ i → i < a + n - g → S.cmp (S.elem m i) v ≤ 0 := fun i hi hi' => by
    by_cases hil : i < a + l
    · exact (h.less i hi hil).le
    · rcases h.equal i (Nat.le_of_not_lt hil) hi' with heq | heq
      · exact heq.le
      · exact heq ▸ hrefl
  have hhigh : ∀ i, a + l ≤ i → i < a + n → S.cmp v (S.elem m i) ≤ 0 := fun i hi hi' => by
    refine (hcmp.swap _ _).2 ?_
    by_cases hig : i < a + n - g
    · rcases h.equal i hi hig with heq | heq
      · exact heq.ge
      · exact (hcmp.swap _ _).1 (heq ▸ hrefl)
    · exact (h.greater i (Nat.le_of_not_lt hig) hi').le
  -- All of the first two parts is before all of the last two.
  have hcross : ∀ i j, a ≤ i → i < a + n - g → a + l ≤ j → j < a + n →
      S.cmp (S.elem m i) (S.elem m j) ≤ 0 :=
    fun i j hi hi' hj hj' => hcmp.trans _ _ _ (hlow i hi hi') (hhigh j hj hj')
  have hmiddle : Ascending (fun x y => S.cmp x y ≤ 0) (a + l) (a + n - g) (S.elem m) :=
    fun i j hi hij hj => hcross i j (by omega) (by omega) (by omega) (by omega)
  have hfirst : Ascending (fun x y => S.cmp x y ≤ 0) a (a + n - g) (S.elem m) :=
    hleft.append hmiddle fun i j hi hi' hj hj' => hcross i j hi (by omega) hj (by omega)
  rw [Sorted, show a + n - g + g = a + n by omega] at hright
  exact hfirst.append hright fun i j hi hi' hj hj' => hcross i j hi hi' (by omega) hj'

end Split

/-- What a pointer to the median is a pointer to. -/
theorem med3_cases (S : Elements) (m : Bytes) (i j k : ℕ) :
    S.med3 m i j k = i ∨ S.med3 m i j k = j ∨ S.med3 m i j k = k := by
  unfold med3
  repeat' split
  all_goals simp

/-- The pivot is one of the elements. -/
theorem pivot_mem (hn : 7 ≤ n) : a ≤ S.pivot m a n ∧ S.pivot m a n < a + n := by
  have hmed : ∀ {i j k}, (a ≤ i ∧ i < a + n) → (a ≤ j ∧ j < a + n) → (a ≤ k ∧ k < a + n) →
      a ≤ S.med3 m i j k ∧ S.med3 m i j k < a + n := fun {i j k} hi hj hk => by
    rcases med3_cases S m i j k with h | h | h <;> rw [h] <;> assumption
  unfold pivot
  dsimp only
  split_ifs
  · exact hmed (hmed (by omega) (by omega) (by omega)) (hmed (by omega) (by omega) (by omega))
      (hmed (by omega) (by omega) (by omega))
  · exact hmed (by omega) (by omega) (by omega)
  · omega

/-- The pivot in front, nothing has been looked at. -/
theorem parted_start (hn : 2 ≤ n) (hre : S.Reordered a n m₀ m) :
    S.Parted a n m₀ m (a + 1) (a + 1) (a + (n - 1)) (a + (n - 1)) :=
  ⟨by omega, by omega, by omega, by omega, by omega, fun i hi hi' => by omega,
    fun i hi hi' => by omega, fun i hi hi' => by omega, fun i hi hi' => by omega, hre⟩

/-- A result is the elements in another order, in the right one if there is one. -/
def Sorts (S : Elements) (a n : ℕ) (m : Bytes) (r : Option Bytes) : Prop :=
  ∃ m', r = some m' ∧ S.Reordered a n m m' ∧ (S.Consistent → S.Sorted a n m')

/-- Short arrays. -/
theorem sorts_insertLoop (ht : S.Suits t) (hre : S.Reordered a n m m') :
    S.Sorts a n m (some (S.insertLoop t a (n - 1) m')) := by
  cases n with
  | zero => exact ⟨_, rfl, hre, fun _ => .of_le (Nat.le_succ _)⟩
  | succ n =>
      exact ⟨_, rfl, hre.trans (insertLoop_reordered ht), fun hcmp => insertLoop_sorted hcmp ht⟩

/-- All arrays, by the number of their elements. -/
theorem qsort_sorts (hfuel : n < fuel) : S.Sorts a n m (S.qsort fuel m a n) := by
  induction fuel generalizing m a n with
  | zero => omega
  | succ fuel ih =>
    have ht : S.Suits (swapinit (S.addr a) S.es) := suits_swapinit
    -- A part of the array is sorted by a call if there is anything to be sorted.
    have hcall : ∀ {m a k}, k < n → S.Sorts a k m (if k > 1 then S.qsort fuel m a k else some m) :=
      fun {m a k} hk => by
      split_ifs with h₁
      · exact ih (by omega)
      · exact ⟨m, rfl, .refl, fun _ => .of_le (by omega)⟩
    rw [qsort]
    dsimp only
    generalize swapinit (S.addr a) S.es = t at ht ⊢
    split_ifs with hn
    · exact sorts_insertLoop ht .refl
    · obtain ⟨hlo, hhi⟩ := pivot_mem (S := S) (m := m) (a := a) (Nat.le_of_not_lt hn)
      have hstart :
          S.Parted a n m (S.yswap t m a (S.pivot m a n)) (a + 1) (a + 1) (a + (n - 1))
          (a + (n - 1)) :=
        parted_start (by omega) (.yswap ht (Nat.le_refl a) (by omega) hlo hhi)
      obtain ⟨m₁, pa, pc, pd, swap_cnt, hpart, hparted⟩ :=
        hstart.partition ht false (show _ < n + 1 by omega)
      rw [hpart, Option.bind_some]
      dsimp only
      by_cases hcnt : swap_cnt = false
      · rw [if_pos hcnt]
        exact sorts_insertLoop ht hparted.reordered
      · rw [if_neg hcnt]
        obtain ⟨hsplit, hre⟩ := hparted.split ht rfl rfl rfl rfl
        generalize S.vecswap t (S.vecswap t m₁ a _ _) _ _ _ = m₂ at hsplit hre ⊢
        have hlt := hsplit.lt
        obtain ⟨m₃, hleft, hre₃, hsorted₃⟩ := hcall (m := m₂) (a := a) (k := pc + 1 - pa) (by omega)
        rw [hleft, Option.bind_some]
        obtain ⟨m₄, hright, hre₄, hsorted₄⟩ :=
          hcall (m := m₃) (a := a + n - (pd - pc)) (k := pd - pc) (by omega)
        refine ⟨m₄, hright, ?_, fun hcmp => ?_⟩
        · exact (hre.trans (hre₃.mono (Nat.le_refl a) (by omega))).trans
            (hre₄.mono (by omega) (by omega))
        · refine ((hsplit.left hre₃).right hre₄).sorted hcmp ?_ (hsorted₄ hcmp)
          exact (hsorted₃ hcmp).congr fun i hi hi' => hre₄.1.eq_of_not (.inl (by omega))

/-- `qsort` returns, whatever the comparison is: the elements are in another order, the rest of the
    memory is as it was. -/
theorem qsort_reordered (S : Elements) (m : Bytes) (n : ℕ) : ∃ m', S.qsort (n + 1) m 0 n = some m' ∧
    (∃ σ : Equiv.Perm ℕ, (∀ i, n ≤ i → σ i = i) ∧ ∀ i, S.elem m' i = S.elem m (σ i)) ∧
      ∀ x, x < S.addr 0 ∨ S.addr n ≤ x → m' x = m x := by
  obtain ⟨m', h, ⟨⟨σ, hσ, heq⟩, hrest⟩, -⟩ :=
    qsort_sorts (S := S) (m := m) (a := 0) (Nat.lt_succ_self n)
  rw [Nat.zero_add] at hσ hrest
  exact ⟨m', h, ⟨σ, fun i hi => hσ i (.inr hi), fun i => congrFun heq i⟩, hrest⟩

/-- By a comparison that is that of an order, the elements are sorted. -/
theorem qsort_ascending (S : Elements) (hcmp : S.Consistent) (m : Bytes) (n : ℕ) :
    ∃ m', S.qsort (n + 1) m 0 n = some m' ∧ ∀ i j, i < j → j < n → S.compare m' i j ≤ 0 := by
  obtain ⟨m', h, -, hsorted⟩ := qsort_sorts (S := S) (m := m) (a := 0) (Nat.lt_succ_self n)
  exact ⟨m', h, fun i j hij hj => hsorted hcmp i j (Nat.zero_le i) hij (by omega)⟩

/-- Characters, compared as numbers. -/
def compareChars (x y : Fin 1 → UInt8) : ℤ := (x 0).toNat - (y 0).toNat

/-- Bytes, in their order. -/
theorem consistent_chars (aa : ℕ) : (Elements.mk aa 1 compareChars Nat.one_pos).Consistent where
  swap x y := by
    simp only [compareChars]
    omega
  trans x y z := by
    simp only [compareChars]
    omega

theorem qsort_ascending_chars : ∃ m', (Elements.mk 4096 1 compareChars Nat.one_pos).qsort 51
      (fun x => UInt8.ofNat (x * x * 7)) 0 50 = some m' ∧
    ∀ i j, i < j → j < 50 → (Elements.mk 4096 1 compareChars Nat.one_pos).compare m' i j ≤ 0 :=
  qsort_ascending ⟨4096, 1, compareChars, Nat.one_pos⟩ (consistent_chars 4096) _ 50

end Elements

end DemoOs
