import DemoOs.Tty.Flow
import DemoOs.Tty.Steps

/-!
# Resizing the buffers

`FIORBUFSET` and `FIOWBUFSET` of `ioctl` destroy a buffer, and initialise it with the new size. The
block is given back before it is known whether there is another one. If there is none, `ENOMEM` is
returned, and the buffer is left with the size asked for and a null pointer.

A size that is not positive is not looked at before `init`, which asserts that it is positive.
Without assertions (`_DEBUG`) it becomes the capacity.

So the calls are what they should be if nothing is to be done, or if the size is positive and there
is a block (`resizes_iff`).
-/

namespace DemoOs

/-- What the heap gives: an address, which is null if there is no memory, and what is there. -/
structure HeapBlock where
  addr : ℕ
  bytes : ℤ → UInt8

/-- A buffer, with the address of its block. -/
structure BlockBuffer extends SRingBuffer UInt8 where
  addr : ℕ

namespace BlockBuffer

variable (b : BlockBuffer)

/-- The buffer after a call, on the block it has. -/
def onBlock (ring : SRingBuffer UInt8) : BlockBuffer := { b with toSRingBuffer := ring }

instance instCharBufferBlockBuffer : CharBuffer BlockBuffer where
  isEmpty b := b.isEmpty
  length b := b.length
  freeSpace b := b.freeSpace
  write b c := ((b.write c).1, b.onBlock (b.write c).2)
  writen b cs := ((b.writen cs).1, b.onBlock (b.writen cs).2)
  read b := (b.read.1, b.onBlock b.read.2)
  readn b n := (b.readn n).map fun (cs, ring) => (cs, b.onBlock ring)
  reset b := b.onBlock b.reset
  capacity b := b.capacity

/-- `destroy`, which leaves the pointer to what it frees. -/
def destroy : BlockBuffer := { b with rIndex := 0, wIndex := 0, capacity := 0 }

/-- `init`, with what `kheap.allocate` returns. The assertion is checked with `_DEBUG`. -/
def init (debug : Bool) (bufSize : ℤ) (block : HeapBlock) : Option (Bool × BlockBuffer) :=
  if debug && !(0 < bufSize) then none
  else some (block.addr ≠ 0,
    { rIndex := 0, wIndex := 0, capacity := bufSize, data := block.bytes, addr := block.addr })

end BlockBuffer

/-- What the terminal returns to who calls it. -/
inductive TtyReply
  | received (ret : ErrNo)
  | transmitted (ret : ErrNo) (outChar : Option UInt8)
  | written (outputBytes : ℤ)
  | taken (bytes : List UInt8)
  | done
  deriving DecidableEq

namespace Tty

open OptionFlags CharBuffer

/-- What an event returns, with the terminal. -/
def call {B : Type} [CharBuffer B] (t : Tty B) : TtyEvent → Option (TtyReply × Tty B)
  | .receive inChar => (t.iSendDataToTty inChar).map fun (ret, t) => (.received ret, t)
  | .transmit => some (.transmitted t.iTransmitDataOfTty.1 t.iTransmitDataOfTty.2.1,
      t.iTransmitDataOfTty.2.2)
  | .readIn buffer => (t.readIn buffer).map fun (n, t) => (.written n, t)
  | .enterWriteOut => t.enterWriteOut.map fun t => (.done, t)
  | .writeOut maxByteSize => (t.writeOut maxByteSize).map fun (bytes, t) => (.taken bytes, t)
  | .flushReadBuffer => some (.done, t.flushReadBuffer)
  | .flushWriteBuffer => some (.done, t.flushWriteBuffer)
  | .setOptions arg => some (.done, t.fioSetOptions arg)

theorem step_eq_call {B : Type} [CharBuffer B] (t : Tty B) (e : TtyEvent) :
    t.step e = (t.call e).map Prod.snd := by
  cases e <;> simp [step, call, Function.comp_def]

/-- What a sequence of events returns, if each of them returns. -/
def replies {B : Type} [CharBuffer B] (t : Tty B) : List TtyEvent → Option (List TtyReply)
  | [] => some []
  | e :: es => (t.call e).bind fun (reply, t) => (t.replies es).map (reply :: ·)

variable (debug : Bool) (t : Tty BlockBuffer) (arg : ℤ) (block : HeapBlock)

/-- `PERCENT(percent, (sint)value)`, in an `u8`. -/
def sintPERCENT (percent value : ℤ) : ℕ :=
  ((sint (sint (percent * value) + 99)).tdiv 100 % 2 ^ 8).toNat

/-- What `FIORBUFSET` does with what `init` returns. -/
def rBufferSet (ok : Bool) (rBuffer : BlockBuffer) : ErrNo × Tty BlockBuffer :=
  let t := { t with rBuffer }
  if ok then
    (.ENONE, { t with
      xoffThreshold := sintPERCENT (100 - XoffPercent) arg
      xonThreshold := sintPERCENT (100 - XonPercent) arg
      rState.flushingRBuffer := false })
  else (.ENOMEM, { t with rState.flushingRBuffer := false })

/-- `ioctl` with `FIORBUFSET`. -/
def fioRBufSet : Option (ErrNo × Tty BlockBuffer) :=
  let arg : ℤ := if arg > MaxInput then MaxInput else arg
  if arg ≠ t.rBuffer.capacity then
    let t := { t with rState.flushingRBuffer := true, rBuffer := t.rBuffer.destroy }
    (BlockBuffer.init debug arg block).map fun (ok, rBuffer) => t.rBufferSet arg ok rBuffer
  else some (.ENONE, t)

/-- `ioctl` with `FIOWBUFSET`. -/
def fioWBufSet : Option (ErrNo × Tty BlockBuffer) :=
  if arg ≠ t.wBuffer.capacity then
    let t := { t with wState.flushingWBuffer := true, wBuffer := t.wBuffer.destroy }
    (BlockBuffer.init debug arg block).map fun (ok, wBuffer) =>
      (if ok then .ENONE else .ENOMEM, { t with wBuffer, wState.flushingWBuffer := false })
  else some (.ENONE, t)

/-! ## Atomicity -/

variable (buffer : Tty BlockBuffer → BlockBuffer)

/-- The call cannot be told not to have been made. -/
structure AsBefore (t t' : Tty BlockBuffer) : Prop where
  capacity : (buffer t').capacity = (buffer t).capacity
  addr : (buffer t').addr = (buffer t).addr
  contents : (buffer t').contents = (buffer t).contents
  xoffThreshold : t'.xoffThreshold = t.xoffThreshold
  xonThreshold : t'.xonThreshold = t.xonThreshold
  replies : ∀ es, t'.replies es = t.replies es

/-- A call returns; with an error, everything is as before, and there is an error if the size is not
    positive. -/
def Atomic (res : Option (ErrNo × Tty BlockBuffer)) : Prop :=
  ∃ ret t', res = some (ret, t') ∧ (ret ≠ .ENONE → AsBefore buffer t t') ∧ (arg ≤ 0 → ret ≠ .ENONE)

variable {debug t arg block buffer}

/-- A call that returns no error is atomic if the size is positive. -/
theorem atomic_some_ENONE_iff {t' : Tty BlockBuffer} :
    Atomic t arg buffer (some (.ENONE, t')) ↔ 0 < arg := by
  constructor
  · rintro ⟨ret, _, heq, -, hpos⟩
    obtain ⟨rfl, -⟩ := Prod.mk.inj (Option.some.inj heq)
    by_contra harg
    exact hpos (by omega) rfl
  · exact fun harg => ⟨_, _, rfl, fun h => absurd rfl h, fun h => absurd harg (by omega)⟩

/-- A call that returns an error is not atomic once the capacity is another one. -/
theorem not_atomic_some {ret : ErrNo} {t' : Tty BlockBuffer} (hret : ret ≠ .ENONE)
    (hcap : (buffer t').capacity ≠ (buffer t).capacity) :
    ¬Atomic t arg buffer (some (ret, t')) := by
  rintro ⟨_, _, heq, hbefore, -⟩
  obtain ⟨rfl, rfl⟩ := Prod.mk.inj (Option.some.inj heq)
  exact hcap (hbefore hret).capacity

theorem not_atomic_none : ¬Atomic t arg buffer none := by
  rintro ⟨_, _, heq, -⟩
  cases heq

/-! ## What the calls do -/

/-- The result of `init`, if the assertion holds or is not checked. -/
theorem init_eq (h : debug = true → 0 < arg) : BlockBuffer.init debug arg block =
    some (decide (block.addr ≠ 0), ⟨⟨0, 0, arg, block.bytes⟩, block.addr⟩) := by
  rw [BlockBuffer.init, if_neg]
  intro hfail
  rw [Bool.and_eq_true, Bool.not_eq_true', decide_eq_false_iff_not] at hfail
  exact hfail.2 (h hfail.1)

theorem init_eq_none (h : ¬(debug = true → 0 < arg)) : BlockBuffer.init debug arg block = none := by
  obtain ⟨hdebug, harg⟩ := Classical.not_imp.1 h
  rw [BlockBuffer.init, if_pos]
  simpa [hdebug] using harg

theorem min_MaxInput : (if arg > MaxInput then (MaxInput : ℤ) else arg) = min arg MaxInput := by
  split_ifs <;> omega

/-- A size that is the capacity is nothing to do. -/
theorem fioRBufSet_of_eq (h : min arg MaxInput = t.rBuffer.capacity) :
    t.fioRBufSet debug arg block = some (.ENONE, t) := by
  rw [fioRBufSet]
  dsimp only
  rw [min_MaxInput, if_neg (not_not.2 h)]

theorem fioRBufSet_of_ne (h : min arg MaxInput ≠ t.rBuffer.capacity) :
    t.fioRBufSet debug arg block =
      (BlockBuffer.init debug (min arg MaxInput) block).map fun (ok, rBuffer) =>
      { t with rState.flushingRBuffer := true, rBuffer := t.rBuffer.destroy }.rBufferSet
        (min arg MaxInput) ok rBuffer := by
  rw [fioRBufSet]
  dsimp only
  rw [min_MaxInput, if_pos h]

theorem fioWBufSet_of_eq (h : arg = t.wBuffer.capacity) :
    t.fioWBufSet debug arg block = some (.ENONE, t) := by
  rw [fioWBufSet, if_neg (not_not.2 h)]

theorem fioWBufSet_of_ne (h : arg ≠ t.wBuffer.capacity) :
    t.fioWBufSet debug arg block = (BlockBuffer.init debug arg block).map fun (ok, wBuffer) =>
      (if ok then .ENONE else .ENOMEM, { t with wBuffer, wState.flushingWBuffer := false }) := by
  rw [fioWBufSet, if_pos h]

@[simp] theorem rBufferSet_rBuffer {ok : Bool} {b : BlockBuffer} :
    (t.rBufferSet arg ok b).2.rBuffer = b := by
  rw [rBufferSet]
  cases ok <;> rfl

/-- The thresholds, in the numbers of `init`. -/
theorem sintPERCENT_eq (percent : ℕ) {value : ℕ} (hpercent : percent ≤ 100) (hvalue : value ≤ 256) :
    sintPERCENT percent value = PERCENT percent value := by
  have hle : percent * value ≤ 100 * 256 := Nat.mul_le_mul hpercent hvalue
  have hmul : ((percent : ℤ) * value) = (percent * value : ℕ) := by push_cast; rfl
  rw [sintPERCENT, PERCENT, hmul, sint_eq (n := (percent * value : ℕ)) (by omega) (by omega),
    sint_eq (by omega) (by omega), word_eq (by omega), Int.tdiv_eq_ediv_of_nonneg (by omega)]
  omega

theorem sintPERCENT_xoff {n : ℕ} (hn : n ≤ 256) :
    sintPERCENT (100 - XoffPercent) n = PERCENT (100 - XoffPercent) n :=
  sintPERCENT_eq 15 (by decide) hn

theorem sintPERCENT_xon {n : ℕ} (hn : n ≤ 256) :
    sintPERCENT (100 - XonPercent) n = PERCENT (100 - XonPercent) n :=
  sintPERCENT_eq 50 (by decide) hn

/-- The section is that of the steps. -/
theorem goOn_rBufferSet {n : ℕ} {ok : Bool} {b : BlockBuffer} (hn : n ≤ 256) :
    TtyPc.goOn 3 (t, .rBufBegin n b ok) =
      some (({ t with rState.flushingRBuffer := true }.rBufferSet n ok b).2, .unlock) := by
  cases ok
  · rfl
  · simp only [rBufferSet, sintPERCENT_xoff hn, sintPERCENT_xon hn]
    rfl

/-- A resize that comes to `init` is atomic if it gets a block for a size that is positive, and in
    no other case: the capacity is another one before anything can be refused. -/
theorem atomic_init_iff {n : ℤ} {f : Bool → BlockBuffer → ErrNo × Tty BlockBuffer}
    (hn : n ≠ (buffer t).capacity) (hpos : 0 < n ↔ 0 < arg) (hset : ∀ b, (f true b).1 = .ENONE)
    (hset' : ∀ b, (f false b).1 = .ENOMEM ∧ buffer (f false b).2 = b) :
    Atomic t arg buffer ((BlockBuffer.init debug n block).map fun (ok, b) => f ok b) ↔
      0 < arg ∧ block.addr ≠ 0 := by
  by_cases hinit : debug = true → 0 < n
  · rw [init_eq hinit, Option.map_some]
    by_cases haddr : block.addr = 0
    · simp only [haddr, ne_eq, not_true_eq_false, decide_false, and_false, iff_false]
      have hret := hset' ⟨⟨0, 0, n, block.bytes⟩, 0⟩
      refine not_atomic_some (by rw [hret.1]; decide) ?_
      rw [hret.2]
      exact hn
    · simp only [haddr, ne_eq, not_false_eq_true, decide_true, and_true]
      have hret := hset ⟨⟨0, 0, n, block.bytes⟩, block.addr⟩
      rw [← Prod.mk.eta (p := f true _), hret]
      exact atomic_some_ENONE_iff
  · rw [init_eq_none hinit, Option.map_none]
    obtain ⟨-, hneg⟩ := Classical.not_imp.1 hinit
    exact iff_of_false not_atomic_none fun h => hneg (hpos.2 h.1)

/-- Resizing a buffer is atomic if and only if the size is positive, and is the capacity or there is
    a block. -/
theorem resizes_iff (debug : Bool) (t : Tty BlockBuffer) (arg : ℤ) (block : HeapBlock) :
    (Atomic t arg rBuffer (t.fioRBufSet debug arg block) ↔
      0 < arg ∧ (min arg MaxInput = t.rBuffer.capacity ∨ block.addr ≠ 0)) ∧
    (Atomic t arg wBuffer (t.fioWBufSet debug arg block) ↔
      0 < arg ∧ (arg = t.wBuffer.capacity ∨ block.addr ≠ 0)) := by
  constructor
  · by_cases h : min arg MaxInput = t.rBuffer.capacity
    · rw [fioRBufSet_of_eq h, atomic_some_ENONE_iff, and_iff_left (.inl h)]
    · have hpos : 0 < min arg (MaxInput : ℤ) ↔ 0 < arg := by
        rw [MaxInput]
        omega
      rw [fioRBufSet_of_ne h, or_iff_right h]
      refine atomic_init_iff h hpos (fun b => ?_) fun b => ⟨?_, rBufferSet_rBuffer⟩
      · simp [rBufferSet]
      · simp [rBufferSet]
  · by_cases h : arg = t.wBuffer.capacity
    · rw [fioWBufSet_of_eq h, atomic_some_ENONE_iff, and_iff_left (.inl h)]
    · rw [fioWBufSet_of_ne h, or_iff_right h]
      exact atomic_init_iff (f := fun ok wBuffer =>
        (if ok then .ENONE else .ENOMEM, { t with wBuffer, wState.flushingWBuffer := false }))
        h .rfl (fun _ => rfl) fun _ => ⟨rfl, rfl⟩

/-- The read and the write buffer of a terminal with a byte in it. -/
def oneByte : BlockBuffer := ⟨⟨3, 4, 8, fun _ => 0x61⟩, 0x1000⟩

/-- Without memory for the new block the byte is lost, and there is nothing to read or to transmit.
    A size of zero fails the assertion, or is the capacity. -/
theorem not_resizes :
    (∃ t', { blank oneByte with readers := 1 }.fioRBufSet true 100 ⟨0, fun _ => 0⟩ =
      some (.ENOMEM, t') ∧
      t'.rBuffer.capacity = 100 ∧ t'.rBuffer.addr = 0 ∧ t'.replies [.writeOut 1] = none ∧
      { blank oneByte with readers := 1 }.replies [.writeOut 1] = some [.taken [0x61]]) ∧
    (∃ t', (blank oneByte).fioWBufSet true 100 ⟨0, fun _ => 0⟩ = some (.ENOMEM, t') ∧
      t'.wBuffer.capacity = 100 ∧ t'.wBuffer.addr = 0 ∧
      t'.replies [.transmit] ≠ (blank oneByte).replies [.transmit]) ∧
    ¬ Atomic { blank oneByte with readers := 1 } 100 rBuffer
      ({ blank oneByte with readers := 1 }.fioRBufSet true 100 ⟨0, fun _ => 0⟩) ∧
    ¬ Atomic (blank oneByte) 100 wBuffer ((blank oneByte).fioWBufSet true 100 ⟨0, fun _ => 0⟩) ∧
    ¬ Atomic (blank oneByte) 0 rBuffer ((blank oneByte).fioRBufSet true 0 ⟨0x2000, fun _ => 0⟩) ∧
    ¬ Atomic (blank oneByte) 0 rBuffer
      ((blank oneByte).fioRBufSet false 0 ⟨0x2000, fun _ => 0⟩) := by
  refine ⟨⟨_, rfl, rfl, rfl, rfl, rfl⟩, ⟨_, rfl, rfl, rfl, by decide⟩, ?_, ?_, not_atomic_none, ?_⟩
  · exact not_atomic_some (by decide) (by decide : (100 : ℤ) ≠ 8)
  · exact not_atomic_some (by decide) (by decide : (100 : ℤ) ≠ 8)
  · exact fun h => absurd (atomic_some_ENONE_iff.1 h) (by decide)

end Tty

end DemoOs
