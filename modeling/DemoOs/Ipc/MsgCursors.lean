import DemoOs.Ipc.MsgQueue
import Mathlib.Data.Int.ModEq
import Mathlib.Tactic.LinearCombination

/-!
# The length of a message queue

The length of a queue is kept three times: by the cursors, by `_msgCount` and by the semaphore.
`Cursors` says that they agree, and that the queue holds at most its capacity. Of the calls,

* `addMessage` and `addUrgentMessage` keep this as long as the queue is not full, but accept a
  message when it is;
* `getMessage` keeps it unless the queue is full: cursors that meet mean an empty queue to it, and
  the permit it took is lost;
* `clear` never does: it gives a permit, by calling `destroy` of the semaphore.
-/

namespace DemoOs

namespace MsgQueue

open Circular

variable {q : MsgQueue} {low c B r w msgBuffer msgSize : ℕ}

/-- The cursors of a queue of `c` slots of `B` bytes, the slot to read from being the `r`th one. -/
structure Cursors (c B r : ℕ) (q : MsgQueue) : Prop where
  block : q.msgBlockSize = B
  four_le : 4 ≤ B
  high : q.bufferHighAddr = q.bufferLowAddr + c * B
  bound : q.bufferLowAddr + c * B < 2 ^ 32
  read_lt : r < c ∨ r = 0
  readPtr : q.readPtr = q.bufferLowAddr + r * B
  writePtr : q.writePtr = q.bufferLowAddr + (r + q.msgCount) % c * B
  count_le : q.msgCount ≤ c
  sem : q.sem = q.msgCount

theorem Cursors.block_pos (h : Cursors c B r q) : 0 < B := by
  have := h.four_le
  omega

/-- Slots that fit below the end of the memory are few. -/
theorem Cursors.capacity_lt (h : Cursors c B r q) : c < 2 ^ 30 := by
  have := Nat.mul_le_mul_left c h.four_le
  have := h.bound
  omega

theorem slot_le (hw : w < c) : w * B + B ≤ c * B := by
  rw [← Nat.succ_mul]
  exact Nat.mul_le_mul_right B hw

/-- A cursor moves on to the next slot, or from the last slot to the first one. -/
theorem advance_eq (low : ℕ) (hw : w < c) (hB : 0 < B) (hbound : low + c * B < 2 ^ 32) :
    (if word (low + w * B + B) ≥ low + c * B then low else word (low + w * B + B)) =
      low + (w + 1) % c * B := by
  have hle := slot_le (B := B) hw
  rw [word_eq (by omega)]
  by_cases hlast : w + 1 = c
  · rw [if_pos (by rw [← hlast, Nat.succ_mul]; omega), hlast, Nat.mod_self]
    omega
  · have hlt := Nat.mul_lt_mul_of_pos_right (show w + 1 < c by omega) hB
    rw [Nat.succ_mul] at hlt
    rw [if_neg (by omega), Nat.mod_eq_of_lt (by omega), Nat.succ_mul]
    omega

/-- The slot before the one to read from. -/
theorem urgentSlot_eq (hblock : q.msgBlockSize = B)
    (hhigh : q.bufferHighAddr = q.bufferLowAddr + c * B)
    (hbound : q.bufferLowAddr + c * B < 2 ^ 32) (hread : q.readPtr = q.bufferLowAddr + r * B)
    (hr : r < c)
    (hB : 0 < B) : q.urgentSlot = q.bufferLowAddr + before c r * B := by
  rw [MsgQueue.urgentSlot, hread, hhigh, hblock]
  unfold before
  rcases Nat.eq_zero_or_pos r with rfl | hpos
  · obtain ⟨d, rfl⟩ := Nat.exists_eq_add_of_lt hr
    rw [if_pos (by omega), if_pos rfl]
    simp only [Nat.zero_add, Nat.add_sub_cancel, Nat.succ_mul] at hbound ⊢
    rw [wordSub_eq (by omega) (by omega)]
    omega
  · have hB := Nat.mul_pos hpos hB
    have hle := Nat.mul_le_mul_right B hr.le
    obtain ⟨d, rfl⟩ := Nat.exists_eq_add_of_lt hpos
    rw [if_neg (by omega), if_neg (by omega)]
    simp only [Nat.zero_add, Nat.add_sub_cancel, Nat.succ_mul] at hle ⊢
    rw [wordSub_eq (by omega) (by omega)]
    omega

theorem Cursors.urgentSlot (h : Cursors c B r q) (hc : 0 < c) :
    q.urgentSlot = q.bufferLowAddr + before c r * B :=
  urgentSlot_eq h.block h.high h.bound h.readPtr
    (h.read_lt.elim id (by rintro rfl; exact hc)) h.block_pos

/-- The cursors meet when the queue is empty, and when it is full. -/
theorem Cursors.readPtr_eq_writePtr_iff (h : Cursors c B r q) :
    q.readPtr = q.writePtr ↔ q.msgCount = 0 ∨ q.msgCount = c := by
  have hiff : q.readPtr = q.writePtr ↔ r = (r + q.msgCount) % c := by
    rw [h.readPtr, h.writePtr, Nat.add_left_cancel_iff]
    exact Nat.mul_left_inj h.block_pos.ne'
  have hcount := h.count_le
  rw [hiff]
  rcases Nat.eq_zero_or_pos c with rfl | hc
  · have : r = 0 := h.read_lt.elim (fun h => absurd h (Nat.not_lt_zero _)) id
    omega
  · have hr : r < c := h.read_lt.elim id (by rintro rfl; exact hc)
    constructor
    · intro heq
      by_contra hne
      refine slot_ne (r := r) (c := c) (i := 0) (j := q.msgCount) (by omega) (by omega) ?_
      rw [Nat.add_zero, Nat.mod_eq_of_lt hr, ← heq]
    · rintro (h₀ | hfull)
      · rw [h₀, Nat.add_zero, Nat.mod_eq_of_lt hr]
      · rw [hfull, Nat.add_mod_right, Nat.mod_eq_of_lt hr]

/-- A block has room for a message and its length. -/
theorem le_blockSize {m : ℕ} (hm : m < 2 ^ 31) : m + 4 ≤ alignUp (m + 4) 4 := by
  have hup : alignUp (m + 4) 4 = _ := alignUp_eq_add (k := 2) (by decide) (by omega)
  omega

theorem cursors_init {m : ℕ} (mem : Bytes) (hm : m < 2 ^ 31)
    (hbound : low + c * alignUp (m + 4) 4 < 2 ^ 32) :
    Cursors c (alignUp (m + 4) 4) 0 (init mem m c low) where
  block := by
    simp only [init]
    rw [word_eq (n := m + 4) (by omega)]
  four_le := by
    have := le_blockSize hm
    omega
  high := by
    simp only [init]
    rw [word_eq (n := m + 4) (by omega), word_eq (n := c * _) (by omega), word_eq hbound]
  bound := hbound
  read_lt := .inr rfl
  readPtr := by simp [init]
  writePtr := by simp [init]
  count_le := Nat.zero_le _
  sem := rfl

/-- An accepted message is counted, and the cursor moves on. -/
theorem Cursors.addMessage (h : Cursors c B r q) (hlt : q.msgCount < c)
    (hok : ¬q.Refuses msgBuffer msgSize) :
    ∃ q', q.addMessage msgBuffer msgSize = (.ENONE, q') ∧ Cursors c B r q' ∧
      q'.bufferLowAddr = q.bufferLowAddr ∧ q'.msgCount = q.msgCount + 1 ∧
      q'.mem = q.fillSlot q.writePtr msgBuffer msgSize := by
  have hc := h.capacity_lt
  have hcount : word (q.msgCount + 1) = q.msgCount + 1 := word_eq (by omega)
  refine ⟨_, if_neg hok, ⟨h.block, h.four_le, h.high, h.bound, h.read_lt, h.readPtr, ?_, ?_, ?_⟩,
    rfl, hcount, rfl⟩
  · have hadv := advance_eq q.bufferLowAddr (Nat.mod_lt (r + q.msgCount) (by omega : 0 < c))
      h.block_pos h.bound
    simp only [unlockSem, h.writePtr, h.block, h.high, hcount, hadv, Nat.mod_add_mod]
    rw [Nat.add_assoc]
  · simp only [unlockSem, hcount]
    omega
  · simp only [unlockSem, hcount, h.sem]
    rw [sint_eq (by omega) (by omega)]
    rfl

/-- An accepted urgent message is counted, and the cursor moves back. -/
theorem Cursors.addUrgentMessage (h : Cursors c B r q) (hlt : q.msgCount < c)
    (hok : ¬q.Refuses msgBuffer msgSize) :
    ∃ q', q.addUrgentMessage msgBuffer msgSize = (.ENONE, q') ∧ Cursors c B (before c r) q' ∧
      q'.bufferLowAddr = q.bufferLowAddr ∧ q'.msgCount = q.msgCount + 1 ∧
      q'.mem = q.fillSlot q.urgentSlot msgBuffer msgSize := by
  have hc := h.capacity_lt
  have hr : r < c := h.read_lt.elim id (by rintro rfl; omega)
  have hcount : word (q.msgCount + 1) = q.msgCount + 1 := word_eq (by omega)
  refine ⟨_, if_neg hok, ⟨h.block, h.four_le, h.high, h.bound, .inl (before_lt hr),
    h.urgentSlot (by omega), ?_, ?_, ?_⟩, rfl, hcount, rfl⟩
  · have hmod : (before c r + (q.msgCount + 1)) % c = (r + q.msgCount) % c := by
      rw [← Nat.add_assoc, Nat.add_right_comm, Nat.add_mod, before_succ_mod hr, Nat.add_mod_mod]
    simp only [unlockSem, hcount, hmod, h.writePtr]
  · simp only [unlockSem, hcount]
    omega
  · simp only [unlockSem, hcount, h.sem]
    rw [sint_eq (by omega) (by omega)]
    rfl

/-- The message delivered is no longer counted, and the cursor moves on. -/
theorem Cursors.getMessage (h : Cursors c B r q) (hpos : 0 < q.msgCount) (hlt : q.msgCount < c)
    (hbuf : msgBuffer ≠ 0) :
    ∃ q', q.getMessage msgBuffer = some (.ENONE, q') ∧ Cursors c B ((r + 1) % c) q' ∧
      q'.bufferLowAddr = q.bufferLowAddr ∧ q'.msgCount = q.msgCount - 1 ∧
      q'.mem = q.mem.memcpy msgBuffer (q.readPtr + 4) (q.mem.word q.readPtr) := by
  have hc := h.capacity_lt
  have hr : r < c := h.read_lt.elim id (by rintro rfl; omega)
  have hcount : wordSub q.msgCount 1 = q.msgCount - 1 := wordSub_eq hpos (by omega)
  have hne : q.readPtr ≠ q.writePtr := by
    rw [Ne, h.readPtr_eq_writePtr_iff]
    omega
  have hsem : ¬q.sem ≤ 0 := by
    rw [h.sem]
    omega
  have hget := MsgQueue.getMessage.eq_1 q msgBuffer
  rw [if_neg hbuf, if_neg hsem] at hget
  refine ⟨_, hget.trans (if_neg hne), ⟨h.block, h.four_le, h.high, h.bound,
    .inl (Nat.mod_lt _ (by omega)), ?_, ?_, ?_, ?_⟩, rfl, hcount, rfl⟩
  · have hadv := advance_eq q.bufferLowAddr hr h.block_pos h.bound
    simp only [h.readPtr, h.block, h.high, hadv]
  · have hmod : ((r + 1) % c + (q.msgCount - 1)) % c = (r + q.msgCount) % c := by
      rw [Nat.mod_add_mod, Nat.add_assoc, Nat.add_sub_cancel' hpos]
    simp only [hcount, hmod, h.writePtr]
  · simp only [hcount]
    omega
  · simp only [hcount, h.sem]
    rw [sint_eq (by omega) (by omega)]
    omega

/-- On a full queue, `getMessage` takes a permit and fails. -/
theorem Cursors.getMessage_full (h : Cursors c B r q) (hpos : 0 < q.msgCount)
    (hfull : q.msgCount = c) (hbuf : msgBuffer ≠ 0) :
    q.getMessage msgBuffer = some (.EBUSY, { q with sem := sint (q.sem - 1) }) := by
  have hsem : ¬q.sem ≤ 0 := by
    rw [h.sem]
    omega
  rw [MsgQueue.getMessage, if_neg hbuf, if_neg hsem]
  exact if_pos (h.readPtr_eq_writePtr_iff.2 (.inr hfull))

/-- Without a message, there is no permit. -/
theorem Cursors.getMessage_empty (h : Cursors c B r q) (hzero : q.msgCount = 0)
    (hbuf : msgBuffer ≠ 0) : q.getMessage msgBuffer = none := by
  rw [MsgQueue.getMessage, if_neg hbuf, if_pos (by simp [h.sem, hzero])]

/-! ## Three lengths -/

/-- A queue of capacity `c` holds at most `c` messages, and its cursors and its semaphore say the
    same of their number as its count does. -/
structure Consistent (c : ℕ) (q : MsgQueue) : Prop where
  count_le : q.msgCount ≤ c
  cursors : (q.writePtr - q.readPtr : ℤ) ≡ q.msgCount * q.msgBlockSize
    [ZMOD q.bufferHighAddr - q.bufferLowAddr]
  permits : q.sem = q.msgCount

/-- The call leaves the queue consistent, adds nothing to a full one and writes nothing to its
    buffer, and finds the queue empty only if it is. -/
def Sound (c : ℕ) (q : MsgQueue) (op : MsgOp) : Prop :=
  ∀ e q', q.call op = some (e, q') → Consistent c q' ∧
    (op.IsAdd → q.msgCount = c →
      e ≠ .ENONE ∧ ∀ a, q.bufferLowAddr ≤ a → a < q.bufferHighAddr → q'.mem a = q.mem a) ∧
    (e = .EBUSY → q.msgCount = 0)

/-- There is room for the message added, no message is taken off a full queue, and `clear` is not
    called. -/
def Room (c : ℕ) (q : MsgQueue) : MsgOp → Prop
  | .addMessage msgBuffer msgSize | .addUrgentMessage msgBuffer msgSize =>
    q.Refuses msgBuffer msgSize ∨ q.msgCount < c
  | .getMessage msgBuffer => msgBuffer = 0 ∨ q.msgCount = 0 ∨ q.msgCount < c
  | .clear => False
  | .store _ _ => True

theorem Cursors.consistent (h : Cursors c B r q) : Consistent c q where
  count_le := h.count_le
  cursors := by
    have hdiv : (c : ℤ) * ((r + q.msgCount) / c : ℕ) + ((r + q.msgCount) % c : ℕ) =
        r + q.msgCount := by exact_mod_cast Nat.div_add_mod (r + q.msgCount) c
    rw [h.readPtr, h.writePtr, h.high, h.block, Int.modEq_iff_dvd]
    refine ⟨((r + q.msgCount) / c : ℕ), ?_⟩
    simp only [Nat.cast_add, Nat.cast_mul]
    linear_combination -(B : ℤ) * hdiv
  permits := h.sem

/-- A call that finds room keeps the lengths in agreement, finds no queue empty that is not, and
    adds nothing to a full one. -/
theorem Cursors.call {op : MsgOp} {e : ErrNo} {q' : MsgQueue} (h : Cursors c B r q)
    (hroom : Room c q op) (hcall : q.call op = some (e, q')) :
    (∃ r', Cursors c B r' q') ∧ e ≠ .EBUSY ∧ (op.IsAdd → q.msgCount = c → e ≠ .ENONE ∧ q' = q) := by
  cases op with
  | addMessage msgBuffer msgSize =>
    have hres : q.addMessage msgBuffer msgSize = (e, q') := Option.some.inj hcall
    -- A call that is refused leaves the queue as it was.
    by_cases href : q.Refuses msgBuffer msgSize
    · obtain ⟨rfl, rfl⟩ := Prod.mk.inj ((if_pos href).symm.trans hres)
      exact ⟨⟨r, h⟩, nofun, fun _ _ => ⟨nofun, rfl⟩⟩
    · have hlt := hroom.resolve_left href
      obtain ⟨q₁, hadd, h₁, -⟩ := h.addMessage hlt href
      obtain ⟨rfl, rfl⟩ := Prod.mk.inj (hadd.symm.trans hres)
      exact ⟨⟨_, h₁⟩, nofun, fun _ hfull => absurd hfull hlt.ne⟩
  | addUrgentMessage msgBuffer msgSize =>
    have hres : q.addUrgentMessage msgBuffer msgSize = (e, q') := Option.some.inj hcall
    by_cases href : q.Refuses msgBuffer msgSize
    · obtain ⟨rfl, rfl⟩ := Prod.mk.inj ((if_pos href).symm.trans hres)
      exact ⟨⟨r, h⟩, nofun, fun _ _ => ⟨nofun, rfl⟩⟩
    · have hlt := hroom.resolve_left href
      obtain ⟨q₁, hadd, h₁, -⟩ := h.addUrgentMessage hlt href
      obtain ⟨rfl, rfl⟩ := Prod.mk.inj (hadd.symm.trans hres)
      exact ⟨⟨_, h₁⟩, nofun, fun _ hfull => absurd hfull hlt.ne⟩
  | getMessage msgBuffer =>
    have hres : q.getMessage msgBuffer = some (e, q') := hcall
    by_cases hbuf : msgBuffer = 0
    · obtain ⟨rfl, rfl⟩ := Prod.mk.inj (Option.some.inj ((if_pos hbuf).symm.trans hres))
      exact ⟨⟨r, h⟩, nofun, nofun⟩
    rcases Nat.eq_zero_or_pos q.msgCount with hzero | hpos
    · exact nomatch hres.symm.trans (h.getMessage_empty hzero hbuf)
    · have hlt := (hroom.resolve_left hbuf).resolve_left hpos.ne'
      obtain ⟨q₁, hget, h₁, -⟩ := h.getMessage hpos hlt hbuf
      obtain ⟨rfl, rfl⟩ := Prod.mk.inj (Option.some.inj (hget.symm.trans hres))
      exact ⟨⟨_, h₁⟩, nofun, nofun⟩
  | clear => exact hroom.elim
  | store a v =>
    obtain ⟨rfl, rfl⟩ := Prod.mk.inj (Option.some.inj hcall)
    exact ⟨⟨r, { h with }⟩, nofun, nofun⟩

/-- A full queue accepts a message. -/
theorem Cursors.room_of_add {op : MsgOp} {res : ErrNo × MsgQueue} (h : Cursors c B r q)
    (hs : Sound c q op) (hop : op.IsAdd) (hcall : q.call op = some res)
    (hadded : ¬q.Refuses msgBuffer msgSize → res.1 = .ENONE) :
    q.Refuses msgBuffer msgSize ∨ q.msgCount < c := by
  by_contra hno
  obtain ⟨href, hlt⟩ := not_or.1 hno
  exact ((hs _ _ hcall).2.1 hop (h.count_le.antisymm (not_lt.1 hlt))).1 (hadded href)

/-- A full queue is taken for an empty one. -/
theorem Cursors.room_of_get (h : Cursors c B r q) (hs : Sound c q (.getMessage msgBuffer)) :
    msgBuffer = 0 ∨ q.msgCount = 0 ∨ q.msgCount < c := by
  by_contra hno
  obtain ⟨hbuf, hpos, hlt⟩ : msgBuffer ≠ 0 ∧ q.msgCount ≠ 0 ∧ ¬q.msgCount < c := by
    simpa only [not_or] using hno
  have hget := h.getMessage_full (Nat.pos_of_ne_zero hpos) (h.count_le.antisymm (not_lt.1 hlt)) hbuf
  exact hpos ((hs _ _ hget).2.2 rfl)

/-- `clear` leaves one permit more than there are messages. -/
theorem Cursors.not_sound_clear (h : Cursors c B r q) : ¬Sound c q .clear := by
  intro hs
  have hc := h.capacity_lt
  have hcount := h.count_le
  have hpermits : sint (q.sem + 1) = 0 := (hs _ _ rfl).1.permits
  rw [h.sem, sint_eq (by omega) (by omega)] at hpermits
  omega

/-- In a queue whose lengths agree, the sound calls are those that find room. -/
theorem Cursors.sound_iff {op : MsgOp} (h : Cursors c B r q) : Sound c q op ↔ Room c q op := by
  constructor
  · intro hs
    cases op with
    | addMessage msgBuffer msgSize =>
      exact h.room_of_add hs trivial rfl fun hok => congrArg Prod.fst (if_neg hok)
    | addUrgentMessage msgBuffer msgSize =>
      exact h.room_of_add hs trivial rfl fun hok => congrArg Prod.fst (if_neg hok)
    | getMessage msgBuffer => exact h.room_of_get hs
    | clear => exact h.not_sound_clear hs
    | store a v => trivial
  · intro hroom e q' hcall
    obtain ⟨⟨r', h'⟩, hbusy, hfull⟩ := h.call hroom hcall
    refine ⟨h'.consistent, fun hop hc => ?_, fun hb => absurd hb hbusy⟩
    obtain ⟨he, rfl⟩ := hfull hop hc
    exact ⟨he, fun _ _ _ => rfl⟩

/-- A new queue is consistent, and every call of a sequence is sound just if every one of them finds
    room. -/
theorem sound_iff_room {m c low : ℕ} (mem : Bytes) (hm : m < 2 ^ 31)
    (hbound : low + c * alignUp (m + 4) 4 < 2 ^ 32) (ops : List MsgOp) :
    Consistent c (init mem m c low) ∧
      (Admissible step (Sound c) (init mem m c low) ops ↔
        Admissible step (Room c) (init mem m c low) ops) := by
  have hinit := cursors_init mem hm hbound
  refine ⟨hinit.consistent, Admissible.iff (G := fun _ _ => True)
    (I := fun q => ∃ r, Cursors c (alignUp (m + 4) 4) r q) ?_ ?_ ⟨0, hinit⟩ ?_⟩
  · rintro q op ⟨r, h⟩ -
    exact h.sound_iff
  · rintro q op q' ⟨r, h⟩ - hroom hstep
    obtain ⟨⟨e, q₁⟩, hcall, rfl⟩ := Option.map_eq_some_iff.1 hstep
    exact (h.call hroom hcall).1
  · exact .of_forall (fun _ _ => trivial) ops

theorem sound_one : Admissible step (Sound 2) (init (fun _ => 0) 4 2 0x400000)
    [.addMessage 0x500000 4, .getMessage 0x600000] := by
  refine (sound_iff_room _ (by decide) (by decide) _).2.2 ⟨.inr (by decide), fun q hq => ?_⟩
  obtain rfl := Option.some.inj hq
  exact ⟨.inr (.inr (by decide)), fun _ _ => trivial⟩

/-- A message of four bytes in a queue of one message is not delivered. -/
theorem not_sound_full :
    ¬Admissible step (Sound 1) (init (fun _ => 0) 4 1 0x400000)
      [.addMessage 0x500000 4, .getMessage 0x500000] := by
  intro h
  have hget := (h.2 _ rfl).1 .EBUSY _ rfl
  exact absurd (hget.2.2 rfl) (by decide)

end MsgQueue

end DemoOs
