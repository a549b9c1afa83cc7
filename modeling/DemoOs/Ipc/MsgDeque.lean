import DemoOs.Ipc.MsgCursors

/-!
# Message queues are not deques

What a message queue is for: the messages outstanding are a deque, `addMessage` appending at the
back, `addUrgentMessage` inserting at the front, and `getMessage` delivering the front into the
buffer of its caller. `Traffic` keeps the deque beside the queue, and `Holds` says that the slots
hold its messages.

The copy in both adding functions goes the wrong way: it fills the buffer of the producer from the
slot, so that a message is only delivered if its bytes are in the slot already (`InPlace`). Which
slot that is, the cursors tell.
-/

namespace DemoOs

namespace MsgQueue

open Circular

variable {q q' : MsgQueue} {c B r w m msgBuffer msgSize : ℕ}

/-- The memory from `a` on is not of the buffer of the queue. -/
def Apart (q : MsgQueue) (a n : ℕ) : Prop := a + n ≤ q.bufferLowAddr ∨ q.bufferHighAddr ≤ a

/-- The message in the `i`th slot. -/
def message (q : MsgQueue) (i : ℕ) : List UInt8 :=
  let a := q.bufferLowAddr + i * q.msgBlockSize
  q.mem.bytes (a + 4) (q.mem.word a)

theorem slots_apart {i j : ℕ} (hij : i ≠ j) : i * B + B ≤ j * B ∨ j * B + B ≤ i * B := by
  rw [← Nat.succ_mul, ← Nat.succ_mul]
  exact (Nat.lt_or_gt_of_ne hij).imp (Nat.mul_le_mul_right B) (Nat.mul_le_mul_right B)

/-- A message is as before if its slot is. -/
theorem message_congr {i : ℕ} (hlow : q'.bufferLowAddr = q.bufferLowAddr)
    (hblock : q'.msgBlockSize = q.msgBlockSize) (hlen : (q.message i).length + 4 ≤ q.msgBlockSize)
    (hmem : ∀ x, q.bufferLowAddr + i * q.msgBlockSize ≤ x →
      x < q.bufferLowAddr + i * q.msgBlockSize + q.msgBlockSize → q'.mem x = q.mem x) :
    q'.message i = q.message i := by
  simp only [message, Bytes.length_bytes] at hlen
  have hword : q'.mem.word (q.bufferLowAddr + i * q.msgBlockSize) =
      q.mem.word (q.bufferLowAddr + i * q.msgBlockSize) :=
    Bytes.word_congr fun j hj => hmem _ (by omega) (by omega)
  simp only [message, hlow, hblock, hword]
  exact Bytes.bytes_eq_iff.2 fun j hj => hmem _ (by omega) (by omega)

/-! ## The copy of the adding functions -/

/-- The buffer of the producer is filled from the slot. -/
theorem bytes_fillSlot {slot : ℕ}
    (h : slot + 4 + msgSize ≤ msgBuffer ∨ msgBuffer + msgSize ≤ slot) :
    (q.fillSlot slot msgBuffer msgSize).bytes msgBuffer msgSize =
      q.mem.bytes (slot + 4) msgSize := by
  refine Bytes.bytes_eq_iff.2 fun i hi => ?_
  rw [fillSlot, Bytes.memcpy_apply (by omega) hi, Bytes.setWord_of_ne (by omega)]

/-- If the message is in the slot already, only its length is stored. -/
theorem fillSlot_of_inPlace {slot : ℕ}
    (h : slot + 4 + msgSize ≤ msgBuffer ∨ msgBuffer + msgSize ≤ slot)
    (hin : q.mem.bytes (slot + 4) msgSize = q.mem.bytes msgBuffer msgSize) :
    q.fillSlot slot msgBuffer msgSize = q.mem.setWord slot msgSize := by
  funext x
  by_cases hx : msgBuffer ≤ x ∧ x < msgBuffer + msgSize
  · obtain ⟨i, rfl⟩ := Nat.exists_eq_add_of_le hx.1
    have hi : i < msgSize := by omega
    rw [fillSlot, Bytes.memcpy_apply (by omega) hi, Bytes.setWord_of_ne (by omega),
      Bytes.bytes_eq_iff.1 hin i hi, Bytes.setWord_of_ne (by omega)]
  · exact Bytes.memcpy_of_ne (by omega)

/-- A message that is in its slot already is put there, and the others stay. -/
theorem message_of_inPlace (hlow : q'.bufferLowAddr = q.bufferLowAddr)
    (hblock : q'.msgBlockSize = q.msgBlockSize)
    (hmem : q'.mem = q.mem.setWord (q.bufferLowAddr + w * q.msgBlockSize) msgSize)
    (hsize : msgSize < 2 ^ 32) (hfour : 4 ≤ q.msgBlockSize)
    (hin : q.mem.bytes (q.bufferLowAddr + w * q.msgBlockSize + 4) msgSize =
      q.mem.bytes msgBuffer msgSize) :
    q'.message w = q.mem.bytes msgBuffer msgSize ∧
      ∀ i ≠ w, (q.message i).length + 4 ≤ q.msgBlockSize → q'.message i = q.message i := by
  constructor
  · rw [← hin, message, hlow, hblock, hmem, Bytes.word_setWord hsize]
    exact Bytes.bytes_eq_iff.2 fun i _ => Bytes.setWord_of_ne (by omega)
  · intro i hiw hlen
    refine message_congr hlow hblock hlen fun x hx₁ hx₂ => ?_
    have := slots_apart (B := q.msgBlockSize) hiw
    rw [hmem, Bytes.setWord_of_ne (by omega)]

end MsgQueue

/-! ## The deque -/

/-- A queue, and the messages outstanding. -/
structure Traffic where
  queue : MsgQueue
  pending : List (List UInt8)

namespace Traffic

open Circular MsgQueue

variable {t t' : Traffic} {c m B : ℕ} {op : MsgOp}

/-- What a successful call makes of the messages outstanding. -/
def outstanding (t : Traffic) : MsgOp → List (List UInt8)
  | .addMessage msgBuffer msgSize => t.pending ++ [t.queue.mem.bytes msgBuffer msgSize]
  | .addUrgentMessage msgBuffer msgSize => t.queue.mem.bytes msgBuffer msgSize :: t.pending
  | .getMessage _ => t.pending.tail
  | .clear => []
  | .store _ _ => t.pending

def step (t : Traffic) (op : MsgOp) : Option Traffic :=
  (t.queue.call op).map fun (e, q) => ⟨q, if e = .ENONE then t.outstanding op else t.pending⟩

/-- The callers send messages of `1` to `m` bytes, no more than `c - 1` of them outstanding, and
    their buffers are not of the queue. -/
def Sends (c m : ℕ) (t : Traffic) : MsgOp → Prop
  | .addMessage msgBuffer msgSize | .addUrgentMessage msgBuffer msgSize =>
    msgBuffer ≠ 0 ∧ 1 ≤ msgSize ∧ msgSize ≤ m ∧ t.queue.Apart msgBuffer msgSize ∧
      t.pending.length + 1 ≤ c - 1
  | .getMessage msgBuffer => ∀ front ∈ t.pending.head?, t.queue.Apart msgBuffer front.length
  | .clear => False
  | .store a _ => t.queue.Apart a 1

/-- A producer finds its buffer as it was; a consumer gets the bytes of the message at the front,
    and no other byte changes. -/
def Delivers (t : Traffic) (op : MsgOp) : Prop :=
  ∀ e q, t.queue.call op = some (e, q) → match op with
    | .addMessage msgBuffer msgSize | .addUrgentMessage msgBuffer msgSize =>
      q.mem.bytes msgBuffer msgSize = t.queue.mem.bytes msgBuffer msgSize
    | .getMessage msgBuffer => msgBuffer ≠ 0 → e = .ENONE ∧ ∃ front rest,
      t.pending = front :: rest ∧ q.mem.bytes msgBuffer front.length = front ∧
        ∀ x, x < msgBuffer ∨ msgBuffer + front.length ≤ x → q.mem x = t.queue.mem x
    | _ => True

/-- The bytes of the message to add are in its slot already. -/
def InPlace (t : Traffic) : MsgOp → Prop
  | .addMessage msgBuffer msgSize =>
    t.queue.mem.bytes (t.queue.writePtr + 4) msgSize = t.queue.mem.bytes msgBuffer msgSize
  | .addUrgentMessage msgBuffer msgSize =>
    t.queue.mem.bytes (t.queue.urgentSlot + 4) msgSize = t.queue.mem.bytes msgBuffer msgSize
  | _ => True

/-- The slots from the one to read from on hold the messages outstanding. -/
structure Holds (c m B r : ℕ) (t : Traffic) : Prop where
  cursors : Cursors c B r t.queue
  fits : m + 4 ≤ B
  size_lt : m < 2 ^ 31
  room : t.queue.msgCount ≤ c - 1
  pending : t.pending = window c r t.queue.msgCount t.queue.message
  length_le : ∀ msg ∈ t.pending, msg.length ≤ m

namespace Holds

variable {r j msgBuffer msgSize : ℕ} {q : MsgQueue}

theorem capacity_pos (h : Holds c m B r t) (hj : j < t.queue.msgCount) : 0 < c :=
  (Nat.zero_lt_of_lt hj).trans_le h.cursors.count_le

theorem length_pending (h : Holds c m B r t) : t.pending.length = t.queue.msgCount := by
  rw [h.pending, length_window]

/-- The slots in use hold messages that fit. -/
theorem length_message (h : Holds c m B r t) (hj : j < t.queue.msgCount) :
    (t.queue.message ((r + j) % c)).length + 4 ≤ t.queue.msgBlockSize := by
  have hmem : t.queue.message ((r + j) % c) ∈ t.pending := by
    rw [h.pending]
    exact List.mem_map_of_mem (List.mem_range.2 hj)
  have hlen := h.length_le _ hmem
  have hfits := h.fits
  rw [h.cursors.block]
  omega

/-- The messages outstanding stay as long as the buffer of the queue does. -/
theorem message_congr (h : Holds c m B r t) (hlow : q.bufferLowAddr = t.queue.bufferLowAddr)
    (hblock : q.msgBlockSize = t.queue.msgBlockSize)
    (hmem : ∀ x, t.queue.bufferLowAddr ≤ x → x < t.queue.bufferHighAddr →
      q.mem x = t.queue.mem x) (hj : j < t.queue.msgCount) :
    q.message ((r + j) % c) = t.queue.message ((r + j) % c) := by
  refine MsgQueue.message_congr hlow hblock (h.length_message hj) fun x hx₁ hx₂ => ?_
  have hslot := slot_le (B := B) (Nat.mod_lt (r + j) (h.capacity_pos hj))
  rw [h.cursors.block] at hx₁ hx₂
  refine hmem x (by omega) ?_
  rw [h.cursors.high]
  omega

/-- A store outside the buffer of the queue. -/
theorem store {a : ℕ} {v : UInt8} (h : Holds c m B r t) (ha : t.queue.Apart a 1) :
    Holds c m B r ⟨{ t.queue with mem := Function.update t.queue.mem a v }, t.pending⟩ where
  cursors := { h.cursors with }
  fits := h.fits
  size_lt := h.size_lt
  room := h.room
  pending := by
    refine h.pending.trans (window_congr fun j hj => ?_)
    refine (h.message_congr (q := { t.queue with mem := Function.update t.queue.mem a v }) rfl rfl
      (fun x hx₁ hx₂ => ?_) hj).symm
    refine Function.update_of_ne ?_ _ _
    unfold Apart at ha
    omega
  length_le := h.length_le

/-- The slot of a message to be added is apart from the buffer of the producer. -/
theorem slot_apart {w : ℕ} (h : Holds c m B r t) (hw : w < c) (hsize : msgSize ≤ m)
    (ha : t.queue.Apart msgBuffer msgSize) :
    t.queue.bufferLowAddr + w * B + 4 + msgSize ≤ msgBuffer ∨
      msgBuffer + msgSize ≤ t.queue.bufferLowAddr + w * B := by
  have hslot := slot_le (B := B) hw
  have hfits := h.fits
  rw [Apart, h.cursors.high] at ha
  omega

/-- A message is accepted if it is not too large. -/
theorem not_refuses (h : Holds c m B r t) (hbuf : msgBuffer ≠ 0) (hpos : 1 ≤ msgSize)
    (hsize : msgSize ≤ m) : ¬t.queue.Refuses msgBuffer msgSize := by
  have hfits := h.fits
  have hm := h.size_lt
  rw [Refuses, h.cursors.block, word_eq (by omega)]
  omega

/-- A message put into a free slot leaves those outstanding. -/
theorem put {w : ℕ} (h : Holds c m B r t) (hlow : q.bufferLowAddr = t.queue.bufferLowAddr)
    (hblock : q.msgBlockSize = t.queue.msgBlockSize) (hw : w < c)
    (hfree : ∀ j < t.queue.msgCount, (r + j) % c ≠ w) (hsize : msgSize ≤ m)
    (ha : t.queue.Apart msgBuffer msgSize)
    (hin : t.queue.mem.bytes (t.queue.bufferLowAddr + w * B + 4) msgSize =
      t.queue.mem.bytes msgBuffer msgSize)
    (hmem : q.mem = t.queue.fillSlot (t.queue.bufferLowAddr + w * B) msgBuffer msgSize) :
    q.message w = t.queue.mem.bytes msgBuffer msgSize ∧
      window c r t.queue.msgCount q.message = t.pending := by
  have hm := h.size_lt
  rw [fillSlot_of_inPlace (h.slot_apart hw hsize ha) hin, ← h.cursors.block] at hmem
  rw [← h.cursors.block] at hin
  obtain ⟨hput, hothers⟩ := message_of_inPlace hlow hblock hmem (by omega)
    (h.cursors.block.symm ▸ h.cursors.four_le) hin
  refine ⟨hput, ?_⟩
  rw [h.pending]
  exact window_congr fun j hj => hothers _ (hfree j hj) (h.length_message hj)

/-- A message in its slot already is appended at the back. -/
theorem addMessage (h : Holds c m B r t) (hsends : Sends c m t (.addMessage msgBuffer msgSize))
    (hin : InPlace t (.addMessage msgBuffer msgSize)) :
    ∃ q, t.queue.addMessage msgBuffer msgSize = (.ENONE, q) ∧
      Holds c m B r ⟨q, t.outstanding (.addMessage msgBuffer msgSize)⟩ := by
  obtain ⟨hbuf, hpos, hsize, ha, hroom⟩ := hsends
  rw [h.length_pending] at hroom
  obtain ⟨q, hadd, hq, hlow, hcount, hmem⟩ :=
    h.cursors.addMessage (by omega) (h.not_refuses hbuf hpos hsize)
  rw [h.cursors.writePtr] at hmem
  rw [InPlace, h.cursors.writePtr] at hin
  obtain ⟨hput, hothers⟩ := h.put hlow (hq.block.trans h.cursors.block.symm)
    (Nat.mod_lt _ (by omega)) (fun j hj => slot_ne hj (by omega)) hsize ha hin hmem
  refine ⟨q, hadd, hq, h.fits, h.size_lt, hcount.trans_le hroom, ?_, fun msg hmsg => ?_⟩
  · change t.pending ++ _ = window c r q.msgCount q.message
    rw [hcount, window_back, hothers, hput]
  · rcases List.mem_append.1 hmsg with hold | hnew
    · exact h.length_le msg hold
    · rwa [List.mem_singleton.1 hnew, Bytes.length_bytes]

/-- An urgent message in its slot already is inserted at the front. -/
theorem addUrgentMessage (h : Holds c m B r t)
    (hsends : Sends c m t (.addUrgentMessage msgBuffer msgSize))
    (hin : InPlace t (.addUrgentMessage msgBuffer msgSize)) :
    ∃ q, t.queue.addUrgentMessage msgBuffer msgSize = (.ENONE, q) ∧
      Holds c m B (before c r) ⟨q, t.outstanding (.addUrgentMessage msgBuffer msgSize)⟩ := by
  obtain ⟨hbuf, hpos, hsize, ha, hroom⟩ := hsends
  rw [h.length_pending] at hroom
  have hr : r < c := h.cursors.read_lt.elim id (by omega)
  obtain ⟨q, hadd, hq, hlow, hcount, hmem⟩ :=
    h.cursors.addUrgentMessage (by omega) (h.not_refuses hbuf hpos hsize)
  rw [h.cursors.urgentSlot (by omega)] at hmem
  rw [InPlace, h.cursors.urgentSlot (by omega)] at hin
  obtain ⟨hput, hothers⟩ := h.put hlow (hq.block.trans h.cursors.block.symm)
    (before_lt hr) (fun j hj => before_ne hr hj (by omega)) hsize ha hin hmem
  refine ⟨q, hadd, hq, h.fits, h.size_lt, hcount.trans_le hroom, ?_, fun msg hmsg => ?_⟩
  · change _ :: t.pending = window c (before c r) q.msgCount q.message
    rw [hcount, window_push hr, hothers, hput]
  · rcases List.mem_cons.1 hmsg with hnew | hold
    · rwa [hnew, Bytes.length_bytes]
    · exact h.length_le msg hold

/-- The slot to read from holds the message at the front. -/
theorem front_eq {front : List UInt8} {rest : List (List UInt8)} (h : Holds c m B r t)
    (hpending : t.pending = front :: rest) :
    0 < t.queue.msgCount ∧ t.queue.msgCount < c ∧ r < c ∧ front = t.queue.message r ∧
      rest = window c (r + 1) (t.queue.msgCount - 1) t.queue.message := by
  have hlen := h.length_pending
  rw [hpending, List.length_cons] at hlen
  have hroom := h.room
  have hr : r < c := h.cursors.read_lt.elim id (by omega)
  have hwindow := h.pending
  rw [hpending, ← Nat.sub_add_cancel (show 1 ≤ t.queue.msgCount by omega), window_front,
    Nat.mod_eq_of_lt hr] at hwindow
  obtain ⟨hfront, hrest⟩ := List.cons_eq_cons.1 hwindow
  exact ⟨by omega, by omega, hr, hfront, hrest⟩

/-- The message at the front is delivered. -/
theorem getMessage {front : List UInt8} {rest : List (List UInt8)} (h : Holds c m B r t)
    (hpending : t.pending = front :: rest) (ha : t.queue.Apart msgBuffer front.length)
    (hbuf : msgBuffer ≠ 0) :
    ∃ q, t.queue.getMessage msgBuffer = some (.ENONE, q) ∧
      Holds c m B ((r + 1) % c) ⟨q, rest⟩ ∧ q.mem.bytes msgBuffer front.length = front ∧
      ∀ x, x < msgBuffer ∨ msgBuffer + front.length ≤ x → q.mem x = t.queue.mem x := by
  obtain ⟨hpos, hlt, hr, hfront, hrest⟩ := h.front_eq hpending
  obtain ⟨q, hget, hq, hlow, hcount, hmem⟩ := h.cursors.getMessage hpos hlt hbuf
  -- The length of the message is in the word before it.
  have hword : t.queue.mem.word t.queue.readPtr = front.length := by
    rw [hfront, message, Bytes.length_bytes, h.cursors.readPtr, h.cursors.block]
  have hbytes : front = t.queue.mem.bytes (t.queue.readPtr + 4) front.length := by
    rw [← hword, h.cursors.readPtr, ← h.cursors.block]
    exact hfront
  rw [hword] at hmem
  -- The buffer of the caller lies outside of the queue, so no message is written over.
  have hapart : t.queue.readPtr + 4 + front.length ≤ msgBuffer ∨
      msgBuffer + front.length ≤ t.queue.readPtr := by
    rw [h.cursors.readPtr]
    exact h.slot_apart hr (h.length_le _ (hpending ▸ List.mem_cons_self)) ha
  have hothers : ∀ x, x < msgBuffer ∨ msgBuffer + front.length ≤ x →
      q.mem x = t.queue.mem x := fun x hx => hmem ▸ Bytes.memcpy_of_ne hx
  refine ⟨q, hget, ⟨hq, h.fits, h.size_lt, ?_, ?_, ?_⟩, ?_, hothers⟩
  · have hroom := h.room
    exact hcount.trans_le (by omega)
  · change rest = window c ((r + 1) % c) q.msgCount q.message
    rw [window_mod, hcount, hrest]
    refine (window_congr fun j hj => ?_).symm
    rw [Nat.add_assoc, Nat.add_comm 1 j]
    refine h.message_congr hlow (hq.block.trans h.cursors.block.symm) (fun x hx₁ hx₂ => ?_)
      (by omega)
    refine hothers x ?_
    unfold Apart at ha
    omega
  · exact fun msg hmsg => h.length_le msg (hpending ▸ List.mem_cons_of_mem _ hmsg)
  · conv_rhs => rw [hbytes]
    exact Bytes.bytes_eq_iff.2 fun i hi => hmem ▸ Bytes.memcpy_apply (by omega) hi

/-- An accepted message leaves the buffer of its producer as it was just if its bytes are in the
    slot. -/
theorem unmodified_iff {w slot : ℕ} (h : Holds c m B r t) (hw : w < c)
    (hslot : slot = t.queue.bufferLowAddr + w * B) (hsize : msgSize ≤ m)
    (ha : t.queue.Apart msgBuffer msgSize) (hcall : t.queue.call op = some (.ENONE, q))
    (hmem : q.mem = t.queue.fillSlot slot msgBuffer msgSize) :
    (∀ e q', t.queue.call op = some (e, q') →
      q'.mem.bytes msgBuffer msgSize = t.queue.mem.bytes msgBuffer msgSize) ↔
    t.queue.mem.bytes (slot + 4) msgSize = t.queue.mem.bytes msgBuffer msgSize := by
  have hbytes := bytes_fillSlot (q := t.queue) (hslot ▸ h.slot_apart hw hsize ha)
  rw [← hmem] at hbytes
  rw [← hbytes]
  constructor
  · exact fun hall => hall _ _ hcall
  · intro heq e q' hcall'
    obtain ⟨-, rfl⟩ := Prod.mk.inj (Option.some.inj (hcall.symm.trans hcall'))
    exact heq

/-- Messages are delivered as they should be just if those added are in their slots. -/
theorem delivers_iff (h : Holds c m B r t) (hsends : Sends c m t op) :
    Delivers t op ↔ InPlace t op := by
  -- The two sends differ in the slot that the message goes to.
  cases op with
  | addMessage msgBuffer msgSize =>
    obtain ⟨hbuf, hpos, hsize, ha, hroom⟩ := hsends
    rw [h.length_pending] at hroom
    obtain ⟨q, hadd, -, -, -, hmem⟩ :=
      h.cursors.addMessage (by omega) (h.not_refuses hbuf hpos hsize)
    exact h.unmodified_iff (Nat.mod_lt _ (by omega)) h.cursors.writePtr hsize ha
      (congrArg some hadd) hmem
  | addUrgentMessage msgBuffer msgSize =>
    obtain ⟨hbuf, hpos, hsize, ha, hroom⟩ := hsends
    rw [h.length_pending] at hroom
    have hr : r < c := h.cursors.read_lt.elim id (by omega)
    obtain ⟨q, hadd, -, -, -, hmem⟩ :=
      h.cursors.addUrgentMessage (by omega) (h.not_refuses hbuf hpos hsize)
    exact h.unmodified_iff (before_lt hr) (h.cursors.urgentSlot (by omega)) hsize ha
      (congrArg some hadd) hmem
  | getMessage msgBuffer =>
    refine iff_of_true (fun e q hcall hbuf => ?_) trivial
    have hres : t.queue.getMessage msgBuffer = some (e, q) := hcall
    rcases hpending : t.pending with - | ⟨front, rest⟩
    · have hzero := h.length_pending
      rw [hpending] at hzero
      exact nomatch hres.symm.trans (h.cursors.getMessage_empty hzero.symm hbuf)
    · obtain ⟨q₁, hget, -, hbytes, hothers⟩ :=
        h.getMessage hpending (hsends front (hpending ▸ rfl)) hbuf
      obtain ⟨rfl, rfl⟩ := Prod.mk.inj (Option.some.inj (hget.symm.trans hres))
      exact ⟨rfl, front, rest, rfl, hbytes, hothers⟩
  | clear => exact hsends.elim
  | store a v => exact iff_of_true (fun _ _ _ => trivial) trivial

/-- A call whose message is in its slot already keeps the slots and the deque in agreement. -/
theorem step (h : Holds c m B r t) (hsends : Sends c m t op) (hin : InPlace t op)
    (hstep : t.step op = some t') : ∃ r', Holds c m B r' t' := by
  obtain ⟨⟨e, q⟩, hcall, rfl⟩ := Option.map_eq_some_iff.1 hstep
  cases op with
  | addMessage msgBuffer msgSize =>
    obtain ⟨q₁, hadd, h₁⟩ := h.addMessage hsends hin
    obtain ⟨rfl, rfl⟩ := Prod.mk.inj (hadd.symm.trans (Option.some.inj hcall))
    exact ⟨_, h₁⟩
  | addUrgentMessage msgBuffer msgSize =>
    obtain ⟨q₁, hadd, h₁⟩ := h.addUrgentMessage hsends hin
    obtain ⟨rfl, rfl⟩ := Prod.mk.inj (hadd.symm.trans (Option.some.inj hcall))
    exact ⟨_, h₁⟩
  | getMessage msgBuffer =>
    have hres : t.queue.getMessage msgBuffer = some (e, q) := hcall
    by_cases hbuf : msgBuffer = 0
    · obtain ⟨rfl, rfl⟩ := Prod.mk.inj (Option.some.inj ((if_pos hbuf).symm.trans hres))
      exact ⟨r, h⟩
    rcases hpending : t.pending with - | ⟨front, rest⟩
    · have hzero := h.length_pending
      rw [hpending] at hzero
      exact nomatch hres.symm.trans (h.cursors.getMessage_empty hzero.symm hbuf)
    · obtain ⟨q₁, hget, h₁, -⟩ := h.getMessage hpending (hsends front (hpending ▸ rfl)) hbuf
      obtain ⟨rfl, rfl⟩ := Prod.mk.inj (Option.some.inj (hget.symm.trans hres))
      refine ⟨(r + 1) % c, ?_⟩
      simpa only [outstanding, hpending, List.tail_cons, if_true] using h₁
  | clear => exact hsends.elim
  | store a v =>
    obtain ⟨rfl, rfl⟩ := Prod.mk.inj (Option.some.inj hcall)
    exact ⟨r, h.store hsends⟩

end Holds

/-- A queue without messages. -/
theorem holds_init {low : ℕ} (mem : Bytes) (hm : m < 2 ^ 31)
    (hbound : low + c * alignUp (m + 4) 4 < 2 ^ 32) :
    Holds c m (alignUp (m + 4) 4) 0 ⟨init mem m c low, []⟩ where
  cursors := cursors_init mem hm hbound
  fits := le_blockSize hm
  size_lt := hm
  room := Nat.zero_le _
  pending := rfl
  length_le := nofun

/-- However the callers keep to their part, messages are delivered as they should be just if those
    added are in their slots. -/
theorem delivers_iff_inPlace {low : ℕ} (mem : Bytes) (hm : m < 2 ^ 31)
    (hbound : low + c * alignUp (m + 4) 4 < 2 ^ 32) (ops : List MsgOp)
    (hsends : Admissible step (Sends c m) ⟨init mem m c low, []⟩ ops) :
    Admissible step Delivers ⟨init mem m c low, []⟩ ops ↔
      Admissible step InPlace ⟨init mem m c low, []⟩ ops := by
  refine Admissible.iff (I := fun t => ∃ r, Holds c m (alignUp (m + 4) 4) r t) ?_ ?_
    ⟨0, holds_init mem hm hbound⟩ hsends
  · rintro t op ⟨r, h⟩ hop
    exact h.delivers_iff hop
  · rintro t op t' ⟨r, h⟩ hop hin hstep
    exact h.step hop hin hstep

/-- The calls of the first run below keep to their part. -/
theorem sends_zeros : Admissible step (Sends 2 4) ⟨init (fun _ => 0) 4 2 0x400000, []⟩
    [.addMessage 0x500000 4, .getMessage 0x600000] := by
  refine ⟨⟨by decide, by decide, by decide, .inr (by decide), by decide⟩, fun t ht => ?_⟩
  obtain rfl := Option.some.inj ht
  refine ⟨fun front hfront => .inr ?_, fun _ _ => trivial⟩
  exact (by decide : alignUp (word 8) 4 * 2 + 0x400000 ≤ 0x600000)

theorem delivers_zeros : Admissible step Delivers ⟨init (fun _ => 0) 4 2 0x400000, []⟩
    [.addMessage 0x500000 4, .getMessage 0x600000] := by
  refine (delivers_iff_inPlace _ (by decide) (by decide) _ sends_zeros).2 ⟨?_, fun t ht => ?_⟩
  · exact Bytes.bytes_eq_iff.2 fun _ _ => rfl
  · exact ⟨trivial, fun _ _ => trivial⟩

/-- A message other than what is in the slot is lost, and so is the buffer of the producer. -/
theorem not_delivers : let t : Traffic :=
      ⟨init (fun a => if a = 0x500000 then 1 else 0) 4 2 0x400000, []⟩
    Admissible step (Sends 2 4) t [.addMessage 0x500000 4] ∧
      ¬Admissible step Delivers t [.addMessage 0x500000 4] := by
  refine ⟨⟨⟨by decide, by decide, by decide, .inr (by decide), by decide⟩, fun _ _ => trivial⟩,
    fun h => ?_⟩
  have hbuf := h.1 _ _ rfl
  exact absurd hbuf (by decide)

end Traffic

end DemoOs
