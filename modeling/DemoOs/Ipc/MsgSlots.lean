import DemoOs.Ipc.MsgCursors
import DemoOs.Mm.HeapRun

/-!
# The slots of a message queue

The buffer of a queue comes from the heap, for as many blocks as it is to hold messages. Its size,
and the size of a message together with its length, are words, and both may overflow: the buffer is
then too small, or a message is accepted that does not fit into its slot. Otherwise the cursors are
at slots, in every state (`Slots`), and a message stays within the one it is put in (`slots_iff`).
-/

namespace DemoOs

namespace MsgQueue

open Circular

/-- `MsgQueueManager::allocate`, with `MsgQueue::init`. Whether there is a free queue (`ret`) is up
    to the pool, and the contents of the buffer are those of the memory. -/
def allocate (header : ℕ) (h : Heap) (ret : Bool) (mem : Bytes) (maxMsgSize msgCount : ℤ) :
    Option (Option MsgQueue × Heap) :=
  if maxMsgSize < 1 ∨ msgCount < 1 ∨ !ret then some (none, h)
  else do
    let msgBlockSize := alignUp (word (maxMsgSize.toNat + 4)) 4
    let (bufferLowAddr, h) ← Heap.allocate header h (word (msgCount.toNat * msgBlockSize))
    if bufferLowAddr = 0 then some (none, h)
    else some (some (init mem maxMsgSize.toNat msgCount.toNat bufferLowAddr), h)

/-- `MsgQueue::destroy`. The buffer is given back to the heap. -/
def destroy (q : MsgQueue) : MsgQueue :=
  -- `_msgQueueSem.destroy()` is `unlock()`, here as well.
  { q.unlockSem with
    bufferHighAddr := 0
    bufferLowAddr := 0
    readPtr := 0
    writePtr := 0
    msgBlockSize := 0
    msgCount := 0 }

/-- The operations: the calls, and `destroy`. -/
inductive Operation
  | call (op : MsgOp)
  | destroy

def operate (q : MsgQueue) : Operation → Option MsgQueue
  | .call op => q.step op
  | .destroy => some q.destroy

/-- The buffer holds as many blocks, of messages of this size and their lengths. -/
def HoldsBlocks (h : Heap) (q : MsgQueue) (maxMsgSize msgCount : ℤ) : Prop :=
  msgCount.toNat * alignUp (maxMsgSize.toNat + 4) 4 ≤ Heap.payloadSize h.mem q.bufferLowAddr

/-- A message, with its length, is within the slot it is put in, and the slot within the buffer; and
    no other byte changes but in the buffer of the caller. -/
structure WithinSlot (q q' : MsgQueue) (slot msgBuffer msgSize : ℕ) : Prop where
  message : slot + 4 + msgSize ≤ slot + q.msgBlockSize
  low : q.bufferLowAddr ≤ slot
  high : slot + q.msgBlockSize ≤ q.bufferHighAddr
  mem : ∀ x, (x < slot ∨ slot + q.msgBlockSize ≤ x) → (x < msgBuffer ∨ msgBuffer + msgSize ≤ x) →
    q'.mem x = q.mem x

/-- A message that is accepted, urgent or not, is within its slot. -/
def InSlots (q : MsgQueue) (msgBuffer msgSize : ℕ) : Prop :=
  (∀ q', q.addMessage msgBuffer msgSize = (.ENONE, q') →
    WithinSlot q q' q.writePtr msgBuffer msgSize) ∧
  ∀ q', q.addUrgentMessage msgBuffer msgSize = (.ENONE, q') →
    WithinSlot q q' q.urgentSlot msgBuffer msgSize

variable {q q' : MsgQueue} {header c B r w slot msgBuffer msgSize : ℕ} {h h' : Heap}
  {blocks : List (ℕ × ℕ)} {ret : Bool} {mem : Bytes} {maxMsgSize msgCount : ℤ} {op : Operation}

/-! ## The cursors -/

/-- The cursors of a queue of `c` slots of `B` bytes are at two of them, however many messages there
    are. -/
structure Slots (c B r w : ℕ) (q : MsgQueue) : Prop where
  block : q.msgBlockSize = B
  four_le : 4 ≤ B
  high : q.bufferHighAddr = q.bufferLowAddr + c * B
  bound : q.bufferLowAddr + c * B < 2 ^ 32
  read_lt : r < c
  write_lt : w < c
  readPtr : q.readPtr = q.bufferLowAddr + r * B
  writePtr : q.writePtr = q.bufferLowAddr + w * B

/-- The queue has its slots, or has been destroyed. -/
def Slotted (c B : ℕ) (q : MsgQueue) : Prop := (∃ r w, Slots c B r w q) ∨ q.msgBlockSize = 0

theorem Slots.pos (hs : Slots c B r w q) : 0 < B := by
  have := hs.four_le
  omega

theorem Slots.addMessage (hs : Slots c B r w q) (msgBuffer msgSize : ℕ) :
    ∃ w', Slots c B r w' (q.addMessage msgBuffer msgSize).2 := by
  unfold MsgQueue.addMessage
  split_ifs
  · exact ⟨w, hs⟩
  · have hadv := advance_eq q.bufferLowAddr hs.write_lt hs.pos hs.bound
    refine ⟨(w + 1) % c,
      { hs with write_lt := Nat.mod_lt _ (by have := hs.write_lt; omega), writePtr := ?_ }⟩
    simp only [unlockSem, hs.writePtr, hs.block, hs.high, hadv]

theorem Slots.urgentSlot (hs : Slots c B r w q) :
    q.urgentSlot = q.bufferLowAddr + before c r * B :=
  urgentSlot_eq hs.block hs.high hs.bound hs.readPtr hs.read_lt hs.pos

theorem Slots.addUrgentMessage (hs : Slots c B r w q) (msgBuffer msgSize : ℕ) :
    ∃ r', Slots c B r' w (q.addUrgentMessage msgBuffer msgSize).2 := by
  unfold MsgQueue.addUrgentMessage
  split_ifs
  · exact ⟨r, hs⟩
  · exact ⟨before c r, { hs with read_lt := before_lt hs.read_lt, readPtr := hs.urgentSlot }⟩

/-- `getMessage` moves one cursor at most, by a block. -/
theorem getMessage_cases {e : ErrNo} (hget : q.getMessage msgBuffer = some (e, q')) :
    q'.msgBlockSize = q.msgBlockSize ∧ q'.bufferLowAddr = q.bufferLowAddr ∧
      q'.bufferHighAddr = q.bufferHighAddr ∧ q'.writePtr = q.writePtr ∧
      (q'.readPtr = q.readPtr ∨ q'.readPtr =
        if word (q.readPtr + q.msgBlockSize) ≥ q.bufferHighAddr then q.bufferLowAddr
        else word (q.readPtr + q.msgBlockSize)) := by
  by_cases hbuf : msgBuffer = 0
  · obtain ⟨-, rfl⟩ := Prod.mk.inj (Option.some.inj ((if_pos hbuf).symm.trans hget))
    exact ⟨rfl, rfl, rfl, rfl, .inl rfl⟩
  by_cases hsem : q.sem ≤ 0
  · rw [MsgQueue.getMessage, if_neg hbuf, if_pos hsem] at hget
    cases hget
  rw [MsgQueue.getMessage, if_neg hbuf, if_neg hsem] at hget
  by_cases heq : q.readPtr = q.writePtr
  · obtain ⟨-, rfl⟩ := Prod.mk.inj (Option.some.inj ((if_pos heq).symm.trans hget))
    exact ⟨rfl, rfl, rfl, rfl, .inl rfl⟩
  · obtain ⟨-, rfl⟩ := Prod.mk.inj (Option.some.inj ((if_neg heq).symm.trans hget))
    exact ⟨rfl, rfl, rfl, rfl, .inr rfl⟩

theorem Slots.getMessage {e : ErrNo} (hs : Slots c B r w q)
    (hget : q.getMessage msgBuffer = some (e, q')) : ∃ r', Slots c B r' w q' := by
  obtain ⟨hblock, hlow, hhigh, hwrite, hread⟩ := getMessage_cases hget
  have hsame : ∀ r', r' < c → q'.readPtr = q'.bufferLowAddr + r' * B → Slots c B r' w q' :=
    fun r' hr' hptr => ⟨hblock.trans hs.block, hs.four_le, by rw [hhigh, hlow, hs.high],
      hlow ▸ hs.bound, hr', hs.write_lt, hptr, by rw [hwrite, hlow, hs.writePtr]⟩
  rcases hread with hread | hread
  · exact ⟨r, hsame r hs.read_lt (by rw [hread, hlow, hs.readPtr])⟩
  · have hadv := advance_eq q.bufferLowAddr hs.read_lt hs.pos hs.bound
    rw [hs.readPtr, hs.block, hs.high, hadv] at hread
    exact ⟨(r + 1) % c, hsame _ (Nat.mod_lt _ (Nat.zero_lt_of_lt hs.read_lt)) (by rw [hread, hlow])⟩

/-- The cursors stay at slots, whatever is done. -/
theorem Slots.call {op : MsgOp} (hs : Slots c B r w q) (hstep : q.step op = some q') :
    ∃ r' w', Slots c B r' w' q' := by
  obtain ⟨⟨e, q₁⟩, hcall, rfl⟩ := Option.map_eq_some_iff.1 hstep
  cases op with
  | addMessage msgBuffer msgSize =>
    obtain ⟨w', h⟩ := hs.addMessage msgBuffer msgSize
    rw [Option.some.inj hcall] at h
    exact ⟨r, w', h⟩
  | addUrgentMessage msgBuffer msgSize =>
    obtain ⟨r', h⟩ := hs.addUrgentMessage msgBuffer msgSize
    rw [Option.some.inj hcall] at h
    exact ⟨r', w, h⟩
  | getMessage msgBuffer =>
    obtain ⟨r', h⟩ := hs.getMessage hcall
    exact ⟨r', w, h⟩
  | clear =>
    obtain ⟨-, rfl⟩ := Prod.mk.inj (Option.some.inj hcall)
    have hc : 0 < c := by
      have := hs.read_lt
      omega
    refine ⟨0, 0, { hs with read_lt := hc, write_lt := hc, readPtr := ?_, writePtr := ?_ }⟩ <;>
      simp [clear, unlockSem]
  | store a v =>
    obtain ⟨-, rfl⟩ := Prod.mk.inj (Option.some.inj hcall)
    exact ⟨r, w, { hs with }⟩

/-- The size of the blocks remains, until the queue is destroyed. -/
theorem msgBlockSize_step {op : MsgOp} (hstep : q.step op = some q') :
    q'.msgBlockSize = q.msgBlockSize := by
  obtain ⟨⟨e, q₁⟩, hcall, rfl⟩ := Option.map_eq_some_iff.1 hstep
  cases op with
  | addMessage msgBuffer msgSize =>
    have h := congrArg (fun x => x.2.msgBlockSize) (Option.some.inj hcall)
    refine h.symm.trans ?_
    unfold MsgQueue.addMessage
    split_ifs <;> rfl
  | addUrgentMessage msgBuffer msgSize =>
    have h := congrArg (fun x => x.2.msgBlockSize) (Option.some.inj hcall)
    refine h.symm.trans ?_
    unfold MsgQueue.addUrgentMessage
    split_ifs <;> rfl
  | getMessage msgBuffer => exact (getMessage_cases hcall).1
  | clear => exact (congrArg (fun x => x.2.msgBlockSize) (Option.some.inj hcall)).symm
  | store a v => exact (congrArg (fun x => x.2.msgBlockSize) (Option.some.inj hcall)).symm

theorem Slotted.operate (hq : Slotted c B q) (hstep : q.operate op = some q') : Slotted c B q' := by
  cases op with
  | destroy => exact .inr (congrArg msgBlockSize (Option.some.inj hstep)).symm
  | call op =>
    rcases hq with ⟨r, w, hs⟩ | hzero
    · exact .inl (hs.call hstep)
    · exact .inr ((msgBlockSize_step hstep).trans hzero)

theorem Slotted.of_run {q₀ : MsgQueue} (hq₀ : Slotted c B q₀)
    (hrun : Run MsgQueue.operate (fun _ _ => True) q₀ q) : Slotted c B q :=
  hrun.invariant (fun hq _ hstep => hq.operate hstep) hq₀

theorem Slotted.msgBlockSize_lt (hq : Slotted c B q) : q.msgBlockSize < 2 ^ 32 := by
  rcases hq with ⟨r, w, hs⟩ | hzero
  · have hle := slot_le (B := B) hs.read_lt
    have hbound := hs.bound
    rw [hs.block]
    omega
  · omega

/-! ## The messages -/

/-- The slot of an accepted message, urgent or not, if it is one of the buffer. -/
theorem Slots.withinSlot (hs : Slots c B r w q) {k : ℕ} (hk : k < c)
    (hslot : slot = q.bufferLowAddr + k * B)
    (hsize : msgSize + 4 ≤ B) (hmem : q'.mem = q.fillSlot slot msgBuffer msgSize) :
    WithinSlot q q' slot msgBuffer msgSize where
  message := by
    rw [hs.block]
    omega
  low := by omega
  high := by
    have := slot_le (B := B) hk
    rw [hs.block, hs.high]
    omega
  mem x hx hbuf := by
    rw [hs.block] at hx
    rw [hmem, fillSlot, Bytes.memcpy_of_ne hbuf, Bytes.setWord_of_ne (by omega)]

theorem Slots.inSlots (hs : Slots c B r w q) (hsize : msgSize + 4 ≤ B) :
    InSlots q msgBuffer msgSize := by
  refine ⟨fun q' hadd => ?_, fun q' hadd => ?_⟩
  · have hok : ¬q.Refuses msgBuffer msgSize := fun hno => by
      rw [MsgQueue.addMessage, if_pos hno] at hadd
      exact nomatch congrArg Prod.fst hadd
    rw [MsgQueue.addMessage, if_neg hok] at hadd
    exact hs.withinSlot hs.write_lt hs.writePtr hsize
      (congrArg (fun x : ErrNo × MsgQueue => x.2.mem) hadd).symm
  · have hok : ¬q.Refuses msgBuffer msgSize := fun hno => by
      rw [MsgQueue.addUrgentMessage, if_pos hno] at hadd
      exact nomatch congrArg Prod.fst hadd
    rw [MsgQueue.addUrgentMessage, if_neg hok] at hadd
    exact hs.withinSlot (before_lt hs.read_lt) hs.urgentSlot hsize
      (congrArg (fun x : ErrNo × MsgQueue => x.2.mem) hadd).symm

theorem inSlots_of_refuses (hno : q.Refuses msgBuffer msgSize) : InSlots q msgBuffer msgSize := by
  refine ⟨fun q' hadd => ?_, fun q' hadd => ?_⟩
  · rw [MsgQueue.addMessage, if_pos hno] at hadd
    exact nomatch congrArg Prod.fst hadd
  · rw [MsgQueue.addUrgentMessage, if_pos hno] at hadd
    exact nomatch congrArg Prod.fst hadd

/-! ## The buffer -/

/-- The buffer of a new queue. The size asked for is the number of its bytes as a word. -/
theorem allocate_eq_some {q₀ : MsgQueue} (hwf : Heap.WellFormed header ⟨h, blocks, []⟩)
    (hm : maxMsgSize < 2 ^ 31)
    (halloc : allocate header h ret mem maxMsgSize msgCount = some (some q₀, h')) :
    0 < msgCount ∧ q₀ = init mem maxMsgSize.toNat msgCount.toNat q₀.bufferLowAddr ∧
      word (msgCount.toNat * alignUp (maxMsgSize.toNat + 4) 4) ≤
        Heap.payloadSize h'.mem q₀.bufferLowAddr ∧
      q₀.bufferLowAddr + Heap.payloadSize h'.mem q₀.bufferLowAddr < 2 ^ 32 := by
  obtain ⟨T, R, hinv⟩ := hwf
  -- The size of a slot does not wrap, that of all slots may.
  have hword : word (maxMsgSize.toNat + 4) = maxMsgSize.toNat + 4 := word_eq (by omega)
  have hdvd : 4 ∣ word (msgCount.toNat * alignUp (maxMsgSize.toNat + 4) 4) :=
    (Nat.dvd_mod_iff (by decide)).2 ((Heap.alignUp_four_dvd _).mul_left _)
  have hlt := word_lt (msgCount.toNat * alignUp (maxMsgSize.toNat + 4) 4)
  obtain ⟨p, h₁, heq, hcase⟩ :=
    Heap.allocate_spec hinv (word (msgCount.toNat * alignUp (maxMsgSize.toNat + 4) 4))
  by_cases hno : maxMsgSize < 1 ∨ msgCount < 1 ∨ !ret
  · rw [allocate, if_pos hno] at halloc
    exact nomatch congrArg Prod.fst (Option.some.inj halloc)
  rw [allocate, if_neg hno] at halloc
  simp only [hword, heq, Option.bind_eq_bind, Option.bind_some] at halloc
  by_cases hzero : p = 0
  · rw [if_pos hzero] at halloc
    exact nomatch congrArg Prod.fst (Option.some.inj halloc)
  rw [if_neg hzero] at halloc
  obtain ⟨hq, rfl⟩ := Prod.mk.inj (Option.some.inj halloc)
  obtain rfl := Option.some.inj hq
  rcases hcase with ⟨hp, -⟩ | ⟨a, s, avail, T', R', -, -, rfl, hle, -, hinv', hused⟩
  · exact absurd hp hzero
  · obtain ⟨hsize, hbound⟩ := hinv'.payload_eq ((congrFun hused a).trans (Function.update_self ..))
    refine ⟨by omega, rfl, ?_, ?_⟩
    · exact (Heap.le_alignUp_four (by omega)).trans (hle.trans hsize.ge)
    · rw [← hsize] at hbound
      exact hbound

/-- The cursors of a new queue are at the first of its slots. -/
theorem slots_init {m low : ℕ} (mem : Bytes) (hm : m < 2 ^ 31) (hc : 0 < c)
    (hbound : low + c * alignUp (m + 4) 4 < 2 ^ 32) :
    Slots c (alignUp (m + 4) 4) 0 0 (init mem m c low) where
  block := (cursors_init mem hm hbound).block
  four_le := (cursors_init mem hm hbound).four_le
  high := (cursors_init mem hm hbound).high
  bound := hbound
  read_lt := hc
  write_lt := hc
  readPtr := by simp [init]
  writePtr := by simp [init]

/-- **Messages stay in their slots**, in every state of a queue the heap has allocated the buffer
    of, exactly when neither size overflows: the one of the buffer, and the one of the message with
    its length, if it is not refused anyway. -/
theorem slots_iff {q₀ : MsgQueue} (hwf : Heap.WellFormed header ⟨h, blocks, []⟩)
    (hm : maxMsgSize < 2 ^ 31)
    (halloc : allocate header h ret mem maxMsgSize msgCount = some (some q₀, h'))
    (hrun : Run operate (fun _ _ => True) q₀ q) :
    HoldsBlocks h' q₀ maxMsgSize msgCount ∧ InSlots q msgBuffer msgSize ↔
      msgCount.toNat * alignUp (maxMsgSize.toNat + 4) 4 < 2 ^ 32 ∧
        (q.Refuses msgBuffer msgSize ∨ msgSize + 4 < 2 ^ 32) := by
  obtain ⟨hcount, hinit, hsize, hbound⟩ := allocate_eq_some hwf hm halloc
  have hm' : maxMsgSize.toNat < 2 ^ 31 := by omega
  -- The blocks cannot be more than the memory.
  have hfit : HoldsBlocks h' q₀ maxMsgSize msgCount ↔
      msgCount.toNat * alignUp (maxMsgSize.toNat + 4) 4 < 2 ^ 32 := by
    refine ⟨fun hholds => ?_, fun hlt => ?_⟩
    · have hle : _ ≤ _ := hholds
      omega
    · rwa [word_eq hlt] at hsize
  rw [hfit]
  refine and_congr_right fun hlt => ?_
  have hslotted : Slotted msgCount.toNat (alignUp (maxMsgSize.toNat + 4) 4) q := by
    refine Slotted.of_run (.inl ⟨0, 0, ?_⟩) hrun
    rw [hinit]
    rw [word_eq hlt] at hsize
    exact slots_init mem hm' (by omega) (by omega)
  by_cases hno : q.Refuses msgBuffer msgSize
  · exact iff_of_true (inSlots_of_refuses hno) (.inl hno)
  · rw [or_iff_right hno]
    refine ⟨fun hin => ?_, fun hlt' => ?_⟩
    · have hmessage := (hin.1 _ (if_neg hno)).message
      have := hslotted.msgBlockSize_lt
      omega
    · obtain ⟨-, hle, -⟩ : _ ∧ _ ∧ _ := by simpa only [Refuses, not_or] using hno
      rw [word_eq hlt'] at hle
      rcases hslotted with ⟨r, w, hs⟩ | hzero
      · exact hs.inSlots (by rw [← hs.block]; omega)
      · omega

/-- The queue of an allocation that succeeds, and the heap it leaves. -/
theorem exists_of_allocate {α : Type} {o : Option (Option MsgQueue × Heap)}
    {f : MsgQueue → Heap → α} {x : α}
    (ho : (o.bind fun r => r.1.map (f · r.2)) = some x) : ∃ q₀ h', o = some (some q₀, h') ∧
    f q₀ h' = x := by
  obtain ⟨⟨o', h'⟩, rfl, ho'⟩ := Option.bind_eq_some_iff.1 ho
  obtain ⟨q₀, rfl, hx⟩ := Option.map_eq_some_iff.1 ho'
  exact ⟨q₀, h', rfl, hx⟩

/-- A queue of two messages of four bytes. -/
theorem slots_two :
    ∃ q₀ h', allocate 64 (Heap.addHeapBlock 64 ⟨fun _ => 0, 0, 0⟩ 1000 2000) true (fun _ => 0) 4 2 =
      some (some q₀, h') ∧ HoldsBlocks h' q₀ 4 2 ∧ InSlots q₀ 0x500000 4 := by
  obtain ⟨q₀, h', heq, -⟩ := exists_of_allocate (f := fun _ _ => ()) (x := ())
    (show (allocate 64 (Heap.addHeapBlock 64 ⟨fun _ => 0, 0, 0⟩ 1000 2000) true
      (fun _ => 0) 4 2).bind _ = _ by
      decide +kernel)
  exact ⟨q₀, h', heq, (slots_iff Heap.wellFormed_block (by decide) heq .refl).2
    ⟨by decide, .inr (by decide)⟩⟩

/-- 65536 blocks of 64 KiB are a buffer of no bytes; and a message of 2 ^ 32 - 4 bytes is accepted,
    its size with its length being 0. -/
theorem not_slots :
    (∃ q₀ h',
    allocate 64 (Heap.addHeapBlock 64 ⟨fun _ => 0, 0, 0⟩ 1000 2000) true (fun _ => 0) 65532 65536 =
      some (some q₀, h') ∧ ¬HoldsBlocks h' q₀ 65532 65536) ∧
    ∃ q₀ h', allocate 64 (Heap.addHeapBlock 64 ⟨fun _ => 0, 0, 0⟩ 1000 2000) true (fun _ => 0) 4 2 =
      some (some q₀, h') ∧ ¬InSlots q₀ 0x500000 (2 ^ 32 - 4) := by
  constructor
  · obtain ⟨q₀, h', heq, hempty⟩ := exists_of_allocate
      (f := fun q h => Heap.payloadSize h.mem q.bufferLowAddr) (x := 0)
      (show (allocate 64 (Heap.addHeapBlock 64 ⟨fun _ => 0, 0, 0⟩ 1000 2000) true (fun _ => 0) 65532
        65536).bind _ = _ by decide +kernel)
    refine ⟨q₀, h', heq, fun hholds => ?_⟩
    have hle : _ ≤ _ := hholds
    rw [hempty] at hle
    exact absurd hle (by decide)
  · obtain ⟨q₀, h', heq, hblock⟩ := exists_of_allocate (f := fun q _ => q.msgBlockSize) (x := 8)
      (show (allocate 64 (Heap.addHeapBlock 64 ⟨fun _ => 0, 0, 0⟩ 1000 2000) true
        (fun _ => 0) 4 2).bind _ = _ by
        decide +kernel)
    refine ⟨q₀, h', heq, fun hin => ?_⟩
    have hok : ¬q₀.Refuses 0x500000 (2 ^ 32 - 4) := by
      rw [Refuses, hblock]
      decide
    have := (hin.1 _ (if_neg hok)).message
    omega

end MsgQueue

end DemoOs
