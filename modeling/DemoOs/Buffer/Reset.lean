import DemoOs.Buffer.Counted

/-!
# Resetting a counted ring buffer

`CRingBuffer::reset` puts the two indices back, and forgets the count. A buffer that is empty is
then as good as one just initialised, and on the same block it is that one (`reset_eq_init`). Any
other one still claims to have its elements, and replies to a call as no fresh buffer does
(`resets_iff`).
-/

namespace DemoOs

namespace CRingBuffer

variable {ι T : Type*}

def reset (b : CRingBuffer T) : CRingBuffer T := { b with rIndex := 0, wIndex := 0 }

/-- What the functions that change nothing say of a buffer. -/
structure View where
  capacity : ℤ
  length : ℤ
  freeSpace : ℤ
  isFull : Bool
  isEmpty : Bool

def view (b : CRingBuffer T) : View := ⟨b.capacity, b.length, b.freeSpace, b.isFull, b.isEmpty⟩

/-- What is to be seen of a family of buffers in a sequence of calls: the replies, and the buffers
    afterwards. -/
def observe [DecidableEq ι] (bs : ι → CRingBuffer T) (ops : List (RingCall ι T)) :
    Option (List (RingReply T) × (ι → View)) :=
  (calls bs ops).map fun (replies, bs) => (replies, fun i => (bs i).view)

/-- No sequence of calls tells one family of buffers from the other. -/
def Alike [DecidableEq ι] (bs bs' : ι → CRingBuffer T) : Prop :=
  ∀ ops : List (RingCall ι T), (∀ op ∈ ops, op.Distinct) → observe bs ops = observe bs' ops

variable {b : CRingBuffer T} {c : ℕ} {f : RingBufferFlag} {q : List T}

/-- Empty, a buffer is reset to what its block is initialised to. -/
theorem reset_eq_init (hpos : 0 < b.capacity) (hempty : b.isEmpty = true) :
    init b.capacity b.flag b.data = some b.reset := by
  have hcount : b.count = 0 := by simpa [isEmpty] using hempty
  rw [init, if_pos hpos, reset, hcount]

theorem Holds.isEmpty_iff (h : Holds c f b q) : b.isEmpty = true ↔ q = [] := by
  rw [isEmpty, h.count, beq_iff_eq, Int.natCast_eq_zero, List.length_eq_zero_iff]

theorem Holds.view (h : Holds c f b q) :
    b.view = ⟨c, q.length, c - q.length, decide (q.length ≥ c), q.length == 0⟩ := by
  have hfull : b.isFull = decide (q.length ≥ c) := by
    rw [isFull, h.count, h.capacity]
    exact decide_eq_decide.2 (by omega)
  have hempty : b.isEmpty = (q.length == 0) := by
    rw [isEmpty, h.count, Bool.eq_iff_iff, beq_iff_eq, beq_iff_eq]
    omega
  rw [CRingBuffer.view, length, freeSpace, h.capacity, h.count, hfull, hempty]

variable [DecidableEq ι] {F : QueueFamily ι} {bs bs' : ι → CRingBuffer T} {qs : ι → List T}

/-- Families of buffers that hold the same queues are alike. -/
theorem HoldAll.alike (h : HoldAll F bs qs) (h' : HoldAll F bs' qs) (hpos : ∀ i, 0 < F.cap i) :
    Alike bs bs' := by
  intro ops hops
  obtain ⟨bs₁, hcalls, hholds⟩ := h.calls hpos hops
  obtain ⟨bs₁', hcalls', hholds'⟩ := h'.calls hpos hops
  rw [observe, observe, hcalls, hcalls']
  exact congrArg some (Prod.ext rfl (funext fun i => (hholds i).view.trans (hholds' i).view.symm))

/-- What is read from a buffer tells whether it is empty. -/
theorem Alike.isEmpty_eq (h : Alike bs bs') (i : ι) : (bs i).isEmpty = (bs' i).isEmpty := by
  have hview : (observe bs []).map (fun x => (x.2 i).isEmpty) = (observe bs' []).map fun x =>
      (x.2 i).isEmpty :=
    congrArg _ (h [] (by simp))
  exact Option.some.inj hview

/-- Of buffers just initialised, after any sequence of calls, one that is reset is like a fresh one
    of its capacity and flag if and only if it is empty. -/
theorem resets_iff {data : ι → ℤ → T} {bs₀ : ι → CRingBuffer T} (hpos : ∀ i, 1 ≤ F.cap i)
    (hlt : ∀ i, F.cap i < 2 ^ 31) (hinit : ∀ i, init (F.cap i) (F.flag i) (data i) = some (bs₀ i))
    {ops : List (RingCall ι T)} (hops : ∀ op ∈ ops, op.Distinct) {replies : List (RingReply T)}
    (hcalls : calls bs₀ ops = some (replies, bs)) (i : ι) {data' : ℤ → T} {fresh : CRingBuffer T}
    (hfresh : init (F.cap i) (F.flag i) data' = some fresh) :
    Alike (Function.update bs i (bs i).reset) (Function.update bs i fresh) ↔
      (bs i).isEmpty = true := by
  obtain ⟨bs₁, hcalls₁, hholds⟩ :=
    HoldAll.calls (F := F) (fun j => holds_init (hlt j) (hinit j)) hpos hops
  rw [hcalls] at hcalls₁
  obtain ⟨-, rfl⟩ := Prod.mk.inj (Option.some.inj hcalls₁)
  have hfresh' := holds_init (hlt i) hfresh
  constructor
  · intro halike
    have heq := halike.isEmpty_eq i
    rw [Function.update_self, Function.update_self, hfresh'.isEmpty_iff.2 rfl] at heq
    exact heq
  · intro hempty
    have hcap := (hholds i).capacity
    have hcapPos : 0 < (bs i).capacity := by
      have := hpos i
      omega
    have hreset := reset_eq_init hcapPos hempty
    rw [hcap, (hholds i).flag] at hreset
    exact (hholds.update (holds_init (hlt i) hreset)).alike (hholds.update hfresh') hpos

/-- A buffer of two elements that has been written and read, and is reset. -/
theorem resets_read : ∃ b : CRingBuffer UInt8, b.wIndex = 1 ∧
    Alike (fun _ : Unit => b.reset) fun _ => ⟨0, 0, 0, 2, .RBF_DEFAULT, fun _ => 7⟩ := by
  have hops : ∀ op ∈ ([.write () 5, .read ()] : List (RingCall Unit UInt8)), op.Distinct := by
    simp [RingCall.Distinct]
  have hinit : ∀ _ : Unit, init 2 .RBF_DEFAULT (fun _ => 0) =
      some (⟨0, 0, 0, 2, .RBF_DEFAULT, fun _ => 0⟩ : CRingBuffer UInt8) := fun _ => rfl
  have hfresh : init 2 .RBF_DEFAULT (fun _ => 7) =
      some (⟨0, 0, 0, 2, .RBF_DEFAULT, fun _ => 7⟩ : CRingBuffer UInt8) := rfl
  have hiff :=
    resets_iff (F := ⟨fun _ : Unit => 2, fun _ => .RBF_DEFAULT⟩) (fun _ => (by decide : 1 ≤ 2))
    (fun _ => (by decide : 2 < 2 ^ 31)) hinit hops rfl () hfresh
  have halike := hiff.2 (by decide)
  simp only [Function.update_eq_const_of_subsingleton] at halike
  exact ⟨_, by decide, halike⟩

/-- A buffer with an element is not empty when it is reset, and what is read from it next is the
    element. -/
theorem not_resets : ∃ b b₁ fresh : CRingBuffer UInt8, init 2 .RBF_DEFAULT (fun _ => 0) = some b ∧
    b.write 5 = (true, b₁) ∧ init 2 .RBF_DEFAULT (fun _ => 0) = some fresh ∧
      b₁.reset.read.1 = some 5 ∧
    fresh.read.1 = none ∧ ¬ Alike (fun _ : Unit => b₁.reset) fun _ => fresh := by
  refine ⟨_, _, _, rfl, rfl, rfl, rfl, rfl, fun halike => ?_⟩
  exact absurd (halike.isEmpty_eq ()) (by decide)

end CRingBuffer

end DemoOs
