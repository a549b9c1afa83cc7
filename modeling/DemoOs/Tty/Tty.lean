import DemoOs.Buffer.Serial

/-!
# Terminals

The functions of `tty.cpp` between a terminal, its device and its readers and writers, each taken as
one step (where an interrupt may come in between is the matter of `Tty.Interrupt`). The semaphores
are counters of permits, and a thread that waits for one takes no step. `writeOut` is two steps: one
takes a permit of `_rSem`, and the other is the loop that waits for a character, and what is behind
it.

The hook that starts the transmitter, the one that is told of `xoff` and those for the interrupt
character do not change the terminal. `_leftBytesInUnfinishedLine`, which is only ever set to zero,
and the fields of windows are left out.
-/

namespace DemoOs

/-- What is used of a buffer of characters. -/
class CharBuffer (B : Type) where
  isEmpty : B → Bool
  length : B → ℤ
  freeSpace : B → ℤ
  write : B → UInt8 → Bool × B
  writen : B → List UInt8 → ℤ × B
  read : B → Option UInt8 × B
  readn : B → ℤ → Option (List UInt8 × B)
  reset : B → B
  capacity : B → ℤ

instance instCharBufferSRingBuffer : CharBuffer (SRingBuffer UInt8) where
  isEmpty := SRingBuffer.isEmpty
  length := SRingBuffer.length
  freeSpace := SRingBuffer.freeSpace
  write := SRingBuffer.write
  writen := SRingBuffer.writen
  read := SRingBuffer.read
  readn := SRingBuffer.readn
  reset := SRingBuffer.reset
  capacity := SRingBuffer.capacity

inductive OptionFlags
  | OPT_ECHO
  | OPT_CRMOD
  | OPT_TANDEM
  | OPT_7_BIT
  | OPT_MON_TRAP
  | OPT_ABORT
  | OPT_LINE
  deriving DecidableEq

def OptionFlags.val : OptionFlags → BitVec 32
  | OPT_ECHO => 0x01
  | OPT_CRMOD => 0x02
  | OPT_TANDEM => 0x04
  | OPT_7_BIT => 0x08
  | OPT_MON_TRAP => 0x10
  | OPT_ABORT => 0x20
  | OPT_LINE => 0x40

/-- `opts & static_cast<word_t>(flag)`, as a condition. -/
def isSet (opts : BitVec 32) (flag : OptionFlags) : Bool := opts &&& flag.val != 0

/-- The control characters that are given values. -/
inductive CtrlCharIndex
  | VINTR
  | VQUIT
  | VERASE
  | VKILL
  | VEOF
  | VTIME
  | VMIN
  | VSTART
  | VSTOP
  deriving DecidableEq

/-- `_rState`. -/
structure RState where
  canceled : Bool
  xoff : Bool
  pending : Bool
  flushingRBuffer : Bool
  deriving DecidableEq

/-- `_wState`. -/
structure WState where
  canceled : Bool
  busy : Bool
  xoff : Bool
  cr : Bool
  flushingWBuffer : Bool
  deriving DecidableEq

structure Tty (B : Type) where
  ctrlChars : CtrlCharIndex → UInt8
  /-- The permits of `_rSem`. -/
  rSem : ℕ
  /-- The permits of `_wSem`. -/
  wSem : ℕ
  /-- The threads in `writeOut` that have got past `_rSem.lock()`. -/
  readers : ℕ
  rBuffer : B
  wBuffer : B
  globalAbortFunc : Bool
  ctrlCHookFunc : Bool
  protoHookFunc : Option (ℤ → ℤ)
  protoArg : ℤ
  rState : RState
  wState : WState
  xoffThreshold : ℕ
  xonThreshold : ℕ
  wrtThreshold : ℕ
  xoffHookFunc : Bool
  bytesInUnfinishedLine : ℕ
  options : BitVec 32

namespace Tty

open OptionFlags CtrlCharIndex CharBuffer

variable {B : Type} [CharBuffer B] (t : Tty B)

/-- `'\n'`. -/
def LF : UInt8 := 0x0A
/-- `'\r'`. -/
def CR : UInt8 := 0x0D
def XON : UInt8 := 0x11
def XOFF : UInt8 := 0x13
def MaxInput : ℕ := 255
def MaxCanOn : ℕ := 255
def WriteThreshold : ℕ := 20
def XoffPercent : ℕ := 85
def XonPercent : ℕ := 50

/-- `PERCENT(percent, value)`, in an `u8`. -/
def PERCENT (percent value : ℕ) : ℕ := word (percent * value + 99) / 100 % 2 ^ 8

/-! ## Starting and stopping -/

def txStartup : Tty B := if t.wState.busy then t else { t with wState.busy := true }

def tyRdXoff (xoff : Bool) : Tty B :=
  if t.rState.xoff ≠ xoff then
    let t := { t with rState.xoff := xoff }
    if t.xoffHookFunc then t
    else
      let t := { t with rState.pending := true }
      if t.wState.busy then t else { t with wState.busy := true }
  else t

def tyWrtXoff (xoff : Bool) : Tty B :=
  if t.wState.xoff ≠ xoff then
    let t := { t with wState.xoff := xoff }
    if !xoff && !t.wState.busy then { t with wState.busy := true } else t
  else t

def flushReadBuffer : Tty B :=
  let t := { t with rState.flushingRBuffer := true }
  let t := { t with rBuffer := reset t.rBuffer, bytesInUnfinishedLine := 0, rSem := 0 }
  let t := t.tyRdXoff false
  { t with rState.flushingRBuffer := false }

def flushWriteBuffer : Tty B :=
  let t := { t with wState.flushingWBuffer := true }
  let t := { t with wBuffer := reset t.wBuffer }
  let t := { t with wState.flushingWBuffer := false }
  { t with wSem := t.wSem + 1 }

/-- A terminal before `init`. -/
def blank (b : B) : Tty B where
  ctrlChars := fun _ => 0
  rSem := 0
  wSem := 0
  readers := 0
  rBuffer := b
  wBuffer := b
  globalAbortFunc := false
  ctrlCHookFunc := false
  protoHookFunc := none
  protoArg := 0
  rState := ⟨false, false, false, false⟩
  wState := ⟨false, false, false, false, false⟩
  xoffThreshold := 0
  xonThreshold := 0
  wrtThreshold := 0
  xoffHookFunc := false
  bytesInUnfinishedLine := 0
  options := 0

/-- `init`, with buffers that have got their blocks, on the fields the constructor leaves as they
    are. -/
def init (rBufSize : ℕ) (rBuffer wBuffer : B) : Tty B :=
  let rBufSize := if rBufSize > MaxInput + 1 then MaxInput + 1 else rBufSize
  let t := { t with
    rBuffer
    wBuffer
    rSem := 0
    wSem := 0
    readers := 0
    ctrlChars := fun
      | VINTR => 0x03
      | VQUIT => 0x18
      | VERASE => 0x08
      | VKILL => 0x15
      | VEOF => 0x04
      | VSTART => XON
      | VSTOP => XOFF
      | VTIME => 0
      | VMIN => 1
    ctrlCHookFunc := false
    protoHookFunc := none
    protoArg := 0
    rState := ⟨false, false, false, false⟩
    wState := ⟨false, false, false, false, false⟩
    xoffThreshold := PERCENT (100 - XoffPercent) rBufSize
    xonThreshold := PERCENT (100 - XonPercent) rBufSize
    wrtThreshold := WriteThreshold
    xoffHookFunc := false
    bytesInUnfinishedLine := 0
    options := 0 }
  t.flushReadBuffer.flushWriteBuffer

/-! ## Writers and readers -/

/-- One turn of the loop of `readIn`, with the bytes left, and how many of them are written. If the
    terminal is cancelled, `readIn` returns. -/
def readIn (buffer : List UInt8) : Option (ℤ × Tty B) :=
  if t.wSem = 0 then none
  else
    let t := { t with wSem := t.wSem - 1 }
    if t.wState.canceled then some (0, t)
    else
      let t := { t with wState.busy := true }
      let (outputBytes, wBuffer) := writen t.wBuffer buffer
      let t := { t with wBuffer, wState.busy := false }
      let t := t.txStartup
      let t := if freeSpace t.wBuffer ≠ 0 then { t with wSem := t.wSem + 1 } else t
      some (outputBytes, t)

/-- `_rSem.lock()` in `writeOut`. -/
def enterWriteOut : Option (Tty B) :=
  if t.rSem = 0 then none else some { t with rSem := t.rSem - 1, readers := t.readers + 1 }

/-- An `uint` of 16 bits. -/
def u16 (n : ℤ) : ℕ := (n % 2 ^ 16).toNat

/-- The bytes that `writeOut` takes: with `OPT_LINE`, no more than the count, which is set to the
    bytes asked for if it is zero, and afterwards to those not got. -/
def takeBytes (maxByteSize : ℕ) : Option (List UInt8 × Tty B) :=
  if isSet t.options OPT_LINE then
    let unfinished :=
      if t.bytesInUnfinishedLine = 0 then u16 maxByteSize else t.bytesInUnfinishedLine
    let freeBytes := min unfinished maxByteSize
    (readn t.rBuffer freeBytes).map fun (bytes, rBuffer) =>
      (bytes, { t with rBuffer, bytesInUnfinishedLine := u16 (freeBytes - bytes.length) })
  else (readn t.rBuffer (sint maxByteSize)).map fun (bytes, rBuffer) => (bytes, { t with rBuffer })

/-- Behind the reading: the device is restarted if there is room, and the next reader released if
    there are characters left. -/
def afterTaken : Tty B :=
  let t :=
    if isSet t.options OPT_TANDEM && t.rState.xoff then
      let freeBytes := freeSpace t.rBuffer
      let freeBytes := if isSet t.options OPT_LINE then
        freeBytes - (t.bytesInUnfinishedLine + 1) else freeBytes
      if freeBytes > t.xonThreshold then t.tyRdXoff false else t
    else t
  if !isEmpty t.rBuffer then { t with rSem := t.rSem + 1 } else t

/-- `writeOut` from its loop on, which is left if the buffer is not empty: the bytes it returns. -/
def writeOut (maxByteSize : ℕ) : Option (List UInt8 × Tty B) :=
  if t.readers = 0 then none
  else if t.rState.canceled then
    some ([], { t with readers := t.readers - 1, rSem := t.rSem + 1 })
  else if isEmpty t.rBuffer then none
  else (takeBytes { t with readers := t.readers - 1 } maxByteSize).map fun (bytes, t) =>
    (bytes, t.afterTaken)

/-- `ioctl` with `FIOSETOPTIONS`. -/
def fioSetOptions (arg : BitVec 32) : Tty B :=
  let oldOpt := t.options
  let t := { t with options := arg }
  let t := if isSet oldOpt OPT_LINE ≠ isSet t.options OPT_LINE then t.flushReadBuffer else t
  if isSet oldOpt OPT_TANDEM && isSet t.options OPT_TANDEM then (t.tyRdXoff false).tyWrtXoff false
  else t

/-! ## The device -/

/-- A character received without `OPT_LINE`: the error, whether to release a reader, whether it has
    erased (which it has not), and the terminal. -/
def receiveRaw (inChar : UInt8) : ErrNo × Bool × Bool × Tty B :=
  let (ok, rBuffer) := write t.rBuffer inChar
  (if ok then .ENONE else .EFAULT, length rBuffer == 1, false, { t with rBuffer })

/-- A character that is not for editing, with two slots free: it is taken if there is room for the
    line, and a newline also if the line has begun. -/
def insert (inChar : UInt8) : ErrNo × Tty B :=
  let biul := t.bytesInUnfinishedLine
  if freeSpace t.rBuffer ≥ biul + 3 ∧ biul < MaxCanOn - 1 then
    (.ENONE, { t with
      bytesInUnfinishedLine := u16 (biul + 1)
      rBuffer := (write t.rBuffer inChar).2 })
  else if inChar = LF then
    -- `_bytesInUnfinishedLine++`, as a condition.
    let t := { t with bytesInUnfinishedLine := u16 (biul + 1) }
    (.EFAULT, if biul ≠ 0 then { t with rBuffer := (write t.rBuffer inChar).2 } else t)
  else (.EFAULT, t)

/-- A character received with `OPT_LINE`: the error, whether to release a reader, whether it has
    erased, and the terminal. -/
def edit (inChar : UInt8) : ErrNo × Bool × Bool × Tty B :=
  let freeBytes := freeSpace t.rBuffer
  if inChar = 127 ∨ inChar = t.ctrlChars VERASE then
    if t.bytesInUnfinishedLine ≠ 0 then
      (.ENONE, false, true, { t with bytesInUnfinishedLine := t.bytesInUnfinishedLine - 1 })
    else (.EFAULT, false, false, t)
  else if inChar = t.ctrlChars VKILL then
    if t.bytesInUnfinishedLine ≠ 0 then
      (.ENONE, false, true, { t with bytesInUnfinishedLine := 0 })
    else (.EFAULT, false, false, t)
  else if inChar = t.ctrlChars VEOF then (.ENONE, decide (freeBytes > 0), false, t)
  else if freeBytes ≥ 2 then
    ((t.insert inChar).1, inChar == LF, false, (t.insert inChar).2)
  else (.EFAULT, false, false, t)

/-- A reader is released when the line is complete, and the next line begins. -/
def receiveLine (inChar : UInt8) : ErrNo × Bool × Bool × Tty B :=
  let (ret, releaseTask, erased, t) := t.edit inChar
  (ret, releaseTask, erased, if releaseTask then { t with bytesInUnfinishedLine := 0 } else t)

/-- What is echoed of a character. Those from 0x80 on are less than 0x20, as `char` is signed. -/
def echo (inChar : UInt8) (erased : Bool) : List UInt8 :=
  if isSet t.options OPT_LINE then
    if erased then
      if inChar = t.ctrlChars VKILL then [LF] else [inChar, 0x20, inChar]
    else if inChar.toInt8 < 0x20 ∧ inChar ≠ LF then [0x5E, inChar + 0x40]
    else [inChar]
  else [inChar]

/-- The echo goes to the buffer it comes from: the assignment `buf = tyDev->_wBuffer` copies
    nothing, as `SRingBuffer::operator=` returns its argument, and `buf` stays a reference to
    `_rBuffer`. -/
def echoed (bytes : List UInt8) : Tty B :=
  { t with rBuffer := bytes.foldl (fun buf c => (write buf c).2) t.rBuffer }

/-- The echo, if there is any, starts the transmitter, and the error is gone. -/
def echoBack (ret : ErrNo) (inChar : UInt8) (erased : Bool) : ErrNo × Tty B :=
  if isSet t.options OPT_ECHO && ret == .ENONE && !t.wState.busy && !t.wState.flushingWBuffer then
    (.ENONE, (t.echoed (t.echo inChar erased)).txStartup)
  else (ret, t)

/-- Behind the critical section of `iSendDataToTty`, the device is stopped and restarted, with
    `OPT_TANDEM` and without `OPT_LINE`: the error, whether to release a reader, and the
    terminal. -/
def tandem (ret : ErrNo) (releaseTask : Bool) : ErrNo × Bool × Tty B :=
  if isSet t.options OPT_TANDEM && !isSet t.options OPT_LINE then
    if t.rState.flushingRBuffer then (.EFAULT, releaseTask, t)
    else
      let freeBytes := freeSpace t.rBuffer
      if !t.rState.xoff then
        if freeBytes < t.xoffThreshold then (ret, true, t.tyRdXoff true) else (ret, releaseTask, t)
      else if freeBytes > t.xoffThreshold then (ret, releaseTask, t.tyRdXoff false)
      else (ret, releaseTask, t)
  else (ret, releaseTask, t)

/-- The rest of `iSendDataToTty` for a character that is for the reader. -/
def finish (ret : ErrNo) (releaseTask erased : Bool) (inChar : UInt8) : ErrNo × Tty B :=
  let (ret, t) := t.echoBack ret inChar erased
  let (ret, releaseTask, t) := t.tandem ret releaseTask
  (ret, if releaseTask then { t with rSem := t.rSem + 1 } else t)

/-- A character that is for the reader. -/
def receive (inChar : UInt8) : ErrNo × Tty B :=
  let inChar := if isSet t.options OPT_CRMOD && inChar == CR then LF else inChar
  let (ret, releaseTask, erased, t) :=
    if isSet t.options OPT_LINE then t.receiveLine inChar else t.receiveRaw inChar
  t.finish ret releaseTask erased inChar

/-- A character from the device. A zero with `OPT_CRMOD` and `OPT_LINE` unlocks the mutex, and does
    so again behind it, where `Mutex::unlock` asserts that it is locked: nothing is returned. -/
def iSendDataToTty (inChar : UInt8) : Option (ErrNo × Tty B) :=
  if t.protoHookFunc.any fun hook => hook t.protoArg = 0 then some (.ENONE, t)
  else
    let opts := t.options
    let inChar := if isSet opts OPT_7_BIT then inChar &&& 0x7f else inChar
    if t.rState.flushingRBuffer then some (.ENONE, t)
    else if inChar = t.ctrlChars VINTR ∧ isSet opts OPT_ABORT ∧
      (t.globalAbortFunc || t.ctrlCHookFunc)
    then some (.ENONE, t)
    else if inChar = t.ctrlChars VQUIT ∧ isSet opts OPT_MON_TRAP then some (.ENONE, t)
    else if (inChar = XOFF ∨ inChar = XON) ∧ isSet opts OPT_TANDEM then
      some (.ENONE, t.tyWrtXoff (inChar == XOFF))
    else if isSet opts OPT_CRMOD ∧ isSet opts OPT_LINE ∧ inChar = 0 then none
    else some (t.receive inChar)

/-- `iTransmitDataOfTty` at its label `there`, and behind it. -/
def transmitted (outChar : UInt8) : ErrNo × Option UInt8 × Tty B :=
  if freeSpace t.wBuffer ≥ t.wrtThreshold then
    (.ENONE, some outChar, { t with wSem := t.wSem + 1 })
  else (if t.wState.busy then .ENONE else .EFAULT, some outChar, t)

/-- A character for the device: the error, the character if one is stored, and the terminal. -/
def iTransmitDataOfTty : ErrNo × Option UInt8 × Tty B :=
  if t.rState.pending then
    (if t.wState.busy then .ENONE else .EFAULT, some (if t.rState.xoff then XOFF else XON),
      { t with rState.pending := false })
  else if t.wState.xoff || t.wState.flushingWBuffer then
    (.EFAULT, none, { t with wState.busy := false })
  else if t.wState.cr then transmitted { t with wState.cr := false, wState.busy := true } LF
  else
    match read t.wBuffer with
    | (none, wBuffer) => (.EFAULT, none, { t with wBuffer, wState.busy := false })
    | (some c, wBuffer) =>
      if isSet t.options OPT_CRMOD && c == LF then
        transmitted { t with wBuffer, wState.busy := true, wState.cr := true } CR
      else transmitted { t with wBuffer, wState.busy := true } c

end Tty

end DemoOs
