import DemoOs.Mm.HeapRun

/-!
# Bytes in the heap

Bytes are copied to an allocation of the heap, by `memcpy`. They stay in its payload, so that the
heap is the same as before when the allocation is given back (`sameSegs_free`).
-/

namespace DemoOs

namespace Mem

/-- Storing a byte, into the word it is in. -/
def setByte (m : Mem) (x : ℕ) (b : UInt8) : Mem :=
  let w := m (x / 4 * 4)
  let unit := 256 ^ (3 - x % 4)
  m.write (x / 4 * 4) (w / (256 * unit) * (256 * unit) + b.toNat * unit + w % unit)

/-- `memcpy`, of these bytes. -/
def memcpy (m : Mem) (dst : ℕ) : List UInt8 → Mem
  | [] => m
  | b :: l => memcpy (m.setByte dst b) (dst + 1) l

end Mem

namespace Heap

variable {header : ℕ} {h h₁ : Heap} {T T₀ : Tiling} {R R₀ : List ℕ} {st st₀ : State}
    {blocks : List (ℕ × ℕ)}
  {used₀ : ℕ → Option (ℕ × ℕ)} {a k n p x : ℕ} {l : List UInt8}

/-- The segment in use at `a`, with `k` bytes before its payload and `n` bytes in it. -/
def UsedSeg (st : State) (a k n : ℕ) : Prop :=
  ∃ b ∈ st.blocks, InChain st.heap.mem b.1 a ∧ ¬IsFree st.heap.mem a ∧
    st.heap.mem.headerOffset a = k ∧ st.heap.mem.availableSize a = n

/-- The heap is well-formed, and has the segments of another one, in use and free. -/
structure SameSegs (header : ℕ) (st₀ st : State) : Prop where
  wellFormed : WellFormed header st
  free : ∀ a n, FreeSeg st a n ↔ FreeSeg st₀ a n
  used : ∀ a k n, UsedSeg st a k n ↔ UsedSeg st₀ a k n

theorem Inv.usedSeg_iff (hinv : Inv header {b | b ∈ st.blocks} st.heap T R) :
    UsedSeg st a k n ↔ T.used a = some (k, n) := by
  rw [Tiling.used_eq_some]
  constructor
  · rintro ⟨b, hb, ha, hf, hk, hn⟩
    obtain ⟨s, hs, -⟩ := hinv.rep.of_inChain hb ha
    refine ⟨s, hs, ?_, (hinv.rep.headerOffset_eq hs).symm.trans hk,
      (hinv.rep.availableSize_eq hs).symm.trans hn⟩
    rwa [hinv.isFree_iff hs, Bool.not_eq_true] at hf
  · rintro ⟨s, hs, hf, hk, hn⟩
    refine ⟨_, (hinv.rep.layout.wf.block hs).1, hinv.rep.inChain hs, ?_,
      (hinv.rep.headerOffset_eq hs).trans hk, (hinv.rep.availableSize_eq hs).trans hn⟩
    rw [hinv.isFree_iff hs, hf]
    exact Bool.false_ne_true

theorem Inv.sameSegs (hinv₀ : Inv header {b | b ∈ st₀.blocks} st₀.heap T₀ R₀)
    (hinv : Inv header {b | b ∈ st.blocks} st.heap T R) (hblocks : st.blocks = st₀.blocks)
    (hused : T.used = T₀.used) : SameSegs header st₀ st where
  wellFormed := ⟨T, R, hinv⟩
  free := hinv.freeSeg_iff_of_used hinv₀ hblocks hused
  used a k n := by rw [hinv.usedSeg_iff, hinv₀.usedSeg_iff, hused]

/-- A byte is stored in an allocation. -/
theorem RunInv.setByte (hrun : RunInv header used₀ st T R) {e : ℕ × ℕ} (he : e ∈ st.live)
    (hx : e.1 ≤ x)
    (hlt : x < e.1 + payloadSize st.heap.mem e.1) (b : UInt8) :
    RunInv header used₀
      { st with heap := { st.heap with mem := st.heap.mem.setByte x b } } T R := by
  obtain ⟨a, s, ha, hea, -⟩ := hrun.live_seg he
  have h4 := hrun.inv.rep.layout.aligned ha
  -- The word which the byte is in is in the payload, too.
  obtain ⟨st', hstep, hrun'⟩ := hrun.store (x := x / 4 * 4) _ ⟨e, he, by omega, by omega⟩
  obtain rfl := Option.some.inj hstep
  exact hrun'

/-- Bytes are copied to an allocation. -/
theorem RunInv.memcpy (hrun : RunInv header used₀ st T R) {e : ℕ × ℕ} (he : e ∈ st.live)
    (hx : e.1 ≤ x)
    (hl : x + l.length ≤ e.1 + payloadSize st.heap.mem e.1) :
    RunInv header used₀ { st with heap := { st.heap with mem := st.heap.mem.memcpy x l } } T R := by
  induction l generalizing x st with
  | nil => exact hrun
  | cons b l ih =>
    rw [List.length_cons] at hl
    have hrun' := hrun.setByte he hx (by omega) b
    obtain ⟨a, s, ha, hea, -, hsize, -⟩ := hrun.live_seg he
    obtain ⟨a', s', ha', hea', -, hsize', -⟩ := hrun'.live_seg he
    obtain rfl : a = a' := by omega
    obtain rfl : s = s' := Option.some.inj (ha.symm.trans ha')
    exact ih hrun' he (by omega) (by omega)

/-- An allocation is given back, with these bytes in it. -/
theorem sameSegs_free (hwf : WellFormed header ⟨h, blocks, []⟩)
    (halloc : allocate header h n = some (p, h₁))
    (hp : p ≠ 0) (hn : n + 3 < 2 ^ 32) (hl : l.length ≤ n) :
    SameSegs header ⟨h, blocks, []⟩
      ⟨free header { h₁ with mem := h₁.mem.memcpy p l } p, blocks, []⟩ := by
  obtain ⟨T, R, hinv⟩ := hwf
  obtain ⟨st₁, hstep, T₁, R₁, hrun⟩ := (hinv.runInv rfl).allocate n
  rw [step, halloc] at hstep
  obtain rfl := Option.some.inj hstep
  simp only [if_neg hp] at hrun
  obtain ⟨a, s, -, -, -, hsize, hle⟩ := hrun.live_seg (e := (p, n)) (List.mem_cons_self ..)
  have hcopied := hrun.memcpy (e := (p, n)) (x := p) (l := l) (List.mem_cons_self ..) le_rfl (by
    have := hle hn
    omega)
  obtain ⟨st₂, hstep, T₂, R₂, hrun₂⟩ :=
    hcopied.free (p := p) (.inr ⟨(p, n), List.mem_cons_self .., rfl⟩)
  obtain rfl := Option.some.inj hstep
  refine hinv.sameSegs (T := T₂) (R := R₂) hrun₂.inv rfl (funext fun a => hrun₂.rest a ?_)
  simp

end Heap

end DemoOs
