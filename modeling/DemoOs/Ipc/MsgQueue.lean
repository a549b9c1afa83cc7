import DemoOs.Bytes
import DemoOs.Lib.Circular
import DemoOs.Lib.Run
import DemoOs.Types

/-!
# Message queues

The functions of `msgqueue.cpp`. A message is a length and a body, in one of the slots of a circular
buffer; the cursors are the addresses of the slot to read from and of the slot to write to. The
buffers of the callers lie in the same memory.

The calls are made one at a time, as they hold the mutex, and a call that waits for a permit of the
semaphore takes effect when it gets one: `getMessage` returns nothing as long as there is none.
-/

namespace DemoOs

structure MsgQueue where
  mem : Bytes
  readPtr : ℕ
  writePtr : ℕ
  bufferLowAddr : ℕ
  bufferHighAddr : ℕ
  msgBlockSize : ℕ
  msgCount : ℕ
  /-- The value of `_msgQueueSem`. -/
  sem : ℤ

namespace MsgQueue

/-- `MsgQueue::init`, the heap having allocated the buffer at `bufferLowAddr`. -/
def init (mem : Bytes) (maxMsgSize capacity bufferLowAddr : ℕ) : MsgQueue :=
  let msgBlockSize := alignUp (word (maxMsgSize + 4)) 4
  let size := word (capacity * msgBlockSize)
  { mem := mem
    readPtr := bufferLowAddr
    writePtr := bufferLowAddr
    bufferLowAddr := bufferLowAddr
    bufferHighAddr := word (bufferLowAddr + size)
    msgBlockSize := msgBlockSize
    msgCount := 0
    sem := 0 }

/-- `_msgQueueSem.unlock()`, nobody waiting. -/
def unlockSem (q : MsgQueue) : MsgQueue := { q with sem := sint (q.sem + 1) }

/-- `MsgQueue::getMessage`. -/
def getMessage (q : MsgQueue) (msgBuffer : ℕ) : Option (ErrNo × MsgQueue) :=
  if msgBuffer = 0 then some (.EFAULT, q)
  else if q.sem ≤ 0 then none
  else
    let q := { q with sem := sint (q.sem - 1) }
    -- A full queue has equal cursors as well.
    if q.readPtr = q.writePtr then some (.EBUSY, q)
    else
      let len := q.mem.word q.readPtr
      let mem := q.mem.memcpy msgBuffer (q.readPtr + 4) len
      let readPtr := word (q.readPtr + q.msgBlockSize)
      let msgCount := wordSub q.msgCount 1
      let readPtr := if readPtr ≥ q.bufferHighAddr then q.bufferLowAddr else readPtr
      some (.ENONE, { q with mem := mem, readPtr := readPtr, msgCount := msgCount })

/-- The common first lines of `addMessage` and `addUrgentMessage`. -/
def Refuses (q : MsgQueue) (msgBuffer msgSize : ℕ) : Prop :=
  msgBuffer = 0 ∨ word (msgSize + 4) > q.msgBlockSize ∨ msgSize < 1

instance (q : MsgQueue) (msgBuffer msgSize : ℕ) : Decidable (q.Refuses msgBuffer msgSize) :=
  inferInstanceAs (Decidable (_ ∨ _))

/-- The stores into the slot at `msg`: `memcpy` takes its destination first. -/
def fillSlot (q : MsgQueue) (msg msgBuffer msgSize : ℕ) : Bytes :=
  (q.mem.setWord msg msgSize).memcpy msgBuffer (msg + 4) msgSize

/-- `MsgQueue::addMessage`. -/
def addMessage (q : MsgQueue) (msgBuffer msgSize : ℕ) : ErrNo × MsgQueue :=
  if q.Refuses msgBuffer msgSize then (.EFAULT, q)
  else
    let mem := q.fillSlot q.writePtr msgBuffer msgSize
    let writePtr := word (q.writePtr + q.msgBlockSize)
    let msgCount := word (q.msgCount + 1)
    let writePtr := if writePtr ≥ q.bufferHighAddr then q.bufferLowAddr else writePtr
    (.ENONE, { q with mem := mem, writePtr := writePtr, msgCount := msgCount }.unlockSem)

/-- The slot `addUrgentMessage` writes to, before the one to read from. -/
def urgentSlot (q : MsgQueue) : ℕ :=
  wordSub (if q.readPtr ≤ q.bufferLowAddr then q.bufferHighAddr else q.readPtr) q.msgBlockSize

/-- `MsgQueue::addUrgentMessage`. -/
def addUrgentMessage (q : MsgQueue) (msgBuffer msgSize : ℕ) : ErrNo × MsgQueue :=
  if q.Refuses msgBuffer msgSize then (.EFAULT, q)
  else
    let readPtr := q.urgentSlot
    let mem := q.fillSlot readPtr msgBuffer msgSize
    let msgCount := word (q.msgCount + 1)
    (.ENONE, { q with mem := mem, readPtr := readPtr, msgCount := msgCount }.unlockSem)

/-- `MsgQueue::clear`. The mutex is free, and its `destroy` does nothing. -/
def clear (q : MsgQueue) : MsgQueue :=
  -- `_msgQueueSem.destroy()` is `unlock()`.
  { q with readPtr := q.bufferLowAddr, writePtr := q.bufferLowAddr, msgCount := 0 }.unlockSem

end MsgQueue

/-- The calls, and a store of a caller into its own memory. -/
inductive MsgOp
  | addMessage (msgBuffer msgSize : ℕ)
  | addUrgentMessage (msgBuffer msgSize : ℕ)
  | getMessage (msgBuffer : ℕ)
  | clear
  | store (a : ℕ) (v : UInt8)

def MsgOp.IsAdd : MsgOp → Prop
  | .addMessage .. | .addUrgentMessage .. => True
  | _ => False

namespace MsgQueue

/-- A call, with what it returns. -/
def call (q : MsgQueue) : MsgOp → Option (ErrNo × MsgQueue)
  | .addMessage msgBuffer msgSize => some (q.addMessage msgBuffer msgSize)
  | .addUrgentMessage msgBuffer msgSize => some (q.addUrgentMessage msgBuffer msgSize)
  | .getMessage msgBuffer => q.getMessage msgBuffer
  | .clear => some (.ENONE, q.clear)
  | .store a v => some (.ENONE, { q with mem := Function.update q.mem a v })

def step (q : MsgQueue) (op : MsgOp) : Option MsgQueue := (q.call op).map Prod.snd

end MsgQueue

end DemoOs
