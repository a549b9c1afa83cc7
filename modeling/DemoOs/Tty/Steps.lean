import DemoOs.Tty.Tty

/-!
# The threads in a terminal

`readIn`, `writeOut`, `flushReadBuffer`, `flushWriteBuffer` and `ioctl`, by the steps between which
an interrupt may come in (`TtyPc`, `TtyPc.next`). What is done under the spinlock is one step with
what is around it: a handler that comes in there waits for the spinlock, and does not end.

Each critical section is entered by `_mutex.lock()` and left by `_mutex.unlock()`, and no section is
in another one (`TtyPc.next_inside`). What the functions return is left out.
-/

namespace DemoOs

/-- The calls of `ioctl`, with the values pointed to. -/
inductive IoctlCall (B : Type)
  /-- `FIONREAD`, `FIONWRITE`, `FIOGETOPTIONS`, `FIOISATTY`, `FIOFSTATGET`, `TIOCGWINSZ`,
      `TIOCSWINSZ`, and requests that are not known: the model is not written. -/
  | other
  | FIOFLUSH
  | FIOWFLUSH
  | FIORFLUSH
  | FIOSETOPTIONS (arg : BitVec 32)
  /-- With whether there are threads blocked on `_rSem` and `_wSem`. -/
  | FIOCANCEL (rBlocked wBlocked : Bool)
  | FIOPROTOHOOK (hook : Option (ℤ → ℤ))
  | FIOPROTOARG (arg : ℤ)
  /-- With the buffer after `destroy` and `init`, and whether `init` has succeeded. -/
  | FIORBUFSET (arg : ℤ) (rBuffer : B) (ok : Bool)
  | FIOWBUFSET (arg : ℤ) (wBuffer : B)
  | FIOABORTFUNC (hook : Bool)
  /-- With the characters, unless the pointer is null. -/
  | FIOSETCC (ctrlChars : Option (CtrlCharIndex → UInt8))
  | FIOGETCC (null : Bool)

/-- What follows `flushReadBuffer`. -/
inductive AfterFlush
  | ret
  /-- `flushWriteBuffer()`. -/
  | flushWriteBuffer
  /-- The second test of `FIOSETOPTIONS`. -/
  | tandem (oldOpt : BitVec 32)

/-- Where a thread is in the functions of the terminal: the next thing it does. -/
inductive TtyPc (B : Type)
  | out
  /-- `while(bytes > 0)`, and `_wSem.lock()`. -/
  | readIn (buffer : List UInt8)
  | readInLock (buffer : List UInt8)
  /-- `if(_wState._canceled)`. -/
  | readInCanceled (buffer : List UInt8)
  /-- `_wState._busy = true`. -/
  | readInBusy (buffer : List UInt8)
  /-- `outputBytes = _wBuffer.writen(buffer, bytes)`. -/
  | readInWriten (buffer : List UInt8)
  /-- `_wState._busy = false`. -/
  | readInIdle (buffer : List UInt8)
  /-- `txStartup()`. -/
  | readInStartup (buffer : List UInt8)
  /-- `if(_wBuffer.freeSpace()) _wSem.unlock()`. -/
  | readInSpace (buffer : List UInt8)
  /-- `_mutex.unlock()`, with the bytes left, of which there are none if the terminal is
      cancelled. -/
  | readInUnlock (buffer : List UInt8)
  /-- `_rSem.lock()`. -/
  | writeOut (maxByteSize : ℕ)
  | writeOutLock (maxByteSize : ℕ)
  /-- `if(_rState._canceled)`. -/
  | writeOutCanceled (maxByteSize : ℕ)
  /-- `if(!_rBuffer.isEmpty()) break`. -/
  | writeOutEmpty (maxByteSize : ℕ)
  /-- `_mutex.unlock()` at the end of the loop. -/
  | writeOutAgain (maxByteSize : ℕ)
  /-- The reading. -/
  | writeOutTake (maxByteSize : ℕ)
  /-- What is behind it. -/
  | writeOutAfter
  | writeOutUnlock
  /-- `_mutex.unlock()` if the terminal is cancelled. -/
  | writeOutLeave
  /-- `_rSem.unlock()` then. -/
  | writeOutCancel
  | flushReadBuffer (k : AfterFlush)
  /-- `_rState._flushingRBuffer = true`. -/
  | flushReadBegin (k : AfterFlush)
  /-- `_rBuffer.reset()`. -/
  | flushReadReset (k : AfterFlush)
  /-- `_bytesInUnfinishedLine = 0`. -/
  | flushReadCount (k : AfterFlush)
  /-- `_rSem.clear(0)`. -/
  | flushReadSem (k : AfterFlush)
  /-- `tyRdXoff(false)`. -/
  | flushReadXoff (k : AfterFlush)
  /-- `_rState._flushingRBuffer = false`. -/
  | flushReadEnd (k : AfterFlush)
  | flushReadUnlock (k : AfterFlush)
  | flushWriteBuffer
  /-- `_wState._flushingWBuffer = true`. -/
  | flushWriteBegin
  /-- `_wBuffer.reset()`. -/
  | flushWriteReset
  /-- `_wState._flushingWBuffer = false`. -/
  | flushWriteEnd
  /-- `_wSem.unlock()`. -/
  | flushWriteSem
  | ioctl (call : IoctlCall B)
  /-- The second test of `FIOSETOPTIONS`. -/
  | tandem (oldOpt : BitVec 32)
  | tandemLock
  /-- `tyRdXoff(false)`. -/
  | tandemRead
  /-- `tyWrtXoff(false)`. -/
  | tandemWrite
  | cancelLock (rBlocked wBlocked : Bool)
  /-- `_rState._canceled`, and `_rSem.unlock()`. -/
  | cancelRead (rBlocked wBlocked : Bool)
  /-- `_wState._canceled`, and `_wSem.unlock()`. -/
  | cancelWrite (wBlocked : Bool)
  | rBufLock (arg : ℤ) (rBuffer : B) (ok : Bool)
  /-- `_rState._flushingRBuffer = true`. -/
  | rBufBegin (arg : ℤ) (rBuffer : B) (ok : Bool)
  /-- `_rBuffer.destroy()` and `_rBuffer.init((sint)arg)`. -/
  | rBufInit (arg : ℤ) (rBuffer : B) (ok : Bool)
  /-- `_rState._flushingRBuffer = false`. -/
  | rBufEnd
  | wBufLock (wBuffer : B)
  /-- `_wState._flushingWBuffer = true`. -/
  | wBufBegin (wBuffer : B)
  /-- `_wBuffer.destroy()` and `_wBuffer.init((sint)arg)`. -/
  | wBufInit (wBuffer : B)
  /-- `_wState._flushingWBuffer = false`. -/
  | wBufEnd
  | ctrlCharsLock (ctrlChars : CtrlCharIndex → UInt8)
  /-- `memcpy` to `_ctrlChars`. -/
  | ctrlCharsSet (ctrlChars : CtrlCharIndex → UInt8)
  | ctrlCharsReadLock
  /-- `memcpy` from `_ctrlChars`. -/
  | ctrlCharsRead
  /-- `_mutex.unlock()` as the last thing a function does. -/
  | unlock

/-- What a step is for the mutex. -/
inductive LockStep
  | plain
  | lock
  | unlock
  deriving DecidableEq

/-- The functions that are called. -/
inductive TtyCall (B : Type)
  | readIn (buffer : List UInt8)
  | writeOut (maxByteSize : ℕ)
  | flushReadBuffer
  | flushWriteBuffer
  | ioctl (call : IoctlCall B)

def TtyCall.entry {B : Type} : TtyCall B → TtyPc B
  | readIn buffer => .readIn buffer
  | writeOut maxByteSize => .writeOut maxByteSize
  | flushReadBuffer => .flushReadBuffer .ret
  | flushWriteBuffer => .flushWriteBuffer
  | ioctl call => .ioctl call

namespace TtyPc

open CharBuffer Tty OptionFlags

variable {B : Type} [CharBuffer B]

/-- What `ioctl` does before it goes on, and where it goes on. -/
def ioctlStep (t : Tty B) : IoctlCall B → Tty B × TtyPc B
  | .other => (t, .out)
  | .FIOFLUSH => (t, .flushReadBuffer .flushWriteBuffer)
  | .FIOWFLUSH => (t, .flushWriteBuffer)
  | .FIORFLUSH => (t, .flushReadBuffer .ret)
  | .FIOSETOPTIONS arg => ({ t with options := arg },
    if isSet t.options OPT_LINE ≠ isSet arg OPT_LINE then .flushReadBuffer (.tandem t.options)
    else .tandem t.options)
  | .FIOCANCEL rBlocked wBlocked => (t, .cancelLock rBlocked wBlocked)
  | .FIOPROTOHOOK hook => ({ t with protoHookFunc := hook }, .out)
  | .FIOPROTOARG arg => ({ t with protoArg := arg }, .out)
  | .FIORBUFSET arg rBuffer ok =>
    let arg : ℤ := if arg > MaxInput then MaxInput else arg
    (t, if arg ≠ capacity t.rBuffer then .rBufLock arg rBuffer ok else .out)
  | .FIOWBUFSET arg wBuffer => (t, if arg ≠ capacity t.wBuffer then .wBufLock wBuffer else .out)
  | .FIOABORTFUNC hook => ({ t with ctrlCHookFunc := hook }, .out)
  | .FIOSETCC ctrlChars => (t, ctrlChars.elim .out .ctrlCharsLock)
  | .FIOGETCC null => (t, if null then .out else .ctrlCharsReadLock)

def afterFlush : AfterFlush → TtyPc B
  | .ret => .out
  | .flushWriteBuffer => .flushWriteBuffer
  | .tandem oldOpt => .tandem oldOpt

/-- The next step of a thread, if it does not wait: what it is for the mutex, the terminal, and
    where the thread goes on. -/
def next (t : Tty B) : TtyPc B → Option (LockStep × Tty B × TtyPc B)
  | .out => none
  | .readIn [] => some (.plain, t, .out)
  | .readIn (c :: cs) =>
    -- The thread waits until there is a permit.
    if t.wSem = 0 then none
    else some (.plain, { t with wSem := t.wSem - 1 }, .readInLock (c :: cs))
  | .readInLock buffer => some (.lock, t, .readInCanceled buffer)
  | .readInCanceled buffer =>
    some (.plain, t, if t.wState.canceled then .readInUnlock [] else .readInBusy buffer)
  | .readInBusy buffer => some (.plain, { t with wState.busy := true }, .readInWriten buffer)
  | .readInWriten buffer =>
    let (outputBytes, wBuffer) := writen t.wBuffer buffer
    some (.plain, { t with wBuffer }, .readInIdle (buffer.drop outputBytes.toNat))
  | .readInIdle buffer => some (.plain, { t with wState.busy := false }, .readInStartup buffer)
  | .readInStartup buffer => some (.plain, t.txStartup, .readInSpace buffer)
  | .readInSpace buffer =>
    some (.plain, if freeSpace t.wBuffer ≠ 0 then { t with wSem := t.wSem + 1 } else t,
      .readInUnlock buffer)
  | .readInUnlock buffer => some (.unlock, t, .readIn buffer)
  | .writeOut maxByteSize => t.enterWriteOut.map fun t => (.plain, t, .writeOutLock maxByteSize)
  | .writeOutLock maxByteSize => some (.lock, t, .writeOutCanceled maxByteSize)
  | .writeOutCanceled maxByteSize =>
    some (.plain, t, if t.rState.canceled then .writeOutLeave else .writeOutEmpty maxByteSize)
  | .writeOutEmpty maxByteSize =>
    some (.plain, t,
      if isEmpty t.rBuffer then .writeOutAgain maxByteSize else .writeOutTake maxByteSize)
  -- An empty buffer sends the reader back to the lock, which it gave up.
  | .writeOutAgain maxByteSize => some (.unlock, t, .writeOutLock maxByteSize)
  | .writeOutTake maxByteSize =>
    (takeBytes { t with readers := t.readers - 1 } maxByteSize).map fun (_, t) =>
      (.plain, t, .writeOutAfter)
  | .writeOutAfter => some (.plain, t.afterTaken, .writeOutUnlock)
  | .writeOutUnlock => some (.unlock, t, .out)
  | .writeOutLeave => some (.unlock, t, .writeOutCancel)
  | .writeOutCancel => some (.plain, { t with readers := t.readers - 1, rSem := t.rSem + 1 }, .out)
  | .flushReadBuffer k => some (.lock, t, .flushReadBegin k)
  | .flushReadBegin k => some (.plain, { t with rState.flushingRBuffer := true }, .flushReadReset k)
  | .flushReadReset k => some (.plain, { t with rBuffer := reset t.rBuffer }, .flushReadCount k)
  | .flushReadCount k => some (.plain, { t with bytesInUnfinishedLine := 0 }, .flushReadSem k)
  | .flushReadSem k => some (.plain, { t with rSem := 0 }, .flushReadXoff k)
  | .flushReadXoff k => some (.plain, t.tyRdXoff false, .flushReadEnd k)
  | .flushReadEnd k => some (.plain, { t with rState.flushingRBuffer := false }, .flushReadUnlock k)
  | .flushReadUnlock k => some (.unlock, t, afterFlush k)
  | .flushWriteBuffer => some (.lock, t, .flushWriteBegin)
  | .flushWriteBegin => some (.plain, { t with wState.flushingWBuffer := true }, .flushWriteReset)
  | .flushWriteReset => some (.plain, { t with wBuffer := reset t.wBuffer }, .flushWriteEnd)
  | .flushWriteEnd => some (.plain, { t with wState.flushingWBuffer := false }, .flushWriteSem)
  | .flushWriteSem => some (.plain, { t with wSem := t.wSem + 1 }, .unlock)
  | .ioctl call => some (.plain, ioctlStep t call)
  | .tandem oldOpt =>
    some (.plain, t, if isSet oldOpt OPT_TANDEM && isSet t.options OPT_TANDEM
      then .tandemLock else .out)
  | .tandemLock => some (.lock, t, .tandemRead)
  | .tandemRead => some (.plain, t.tyRdXoff false, .tandemWrite)
  | .tandemWrite => some (.plain, t.tyWrtXoff false, .unlock)
  | .cancelLock rBlocked wBlocked => some (.lock, t, .cancelRead rBlocked wBlocked)
  | .cancelRead rBlocked wBlocked =>
    let t := { t with rState.canceled := rBlocked }
    some (.plain, if rBlocked then { t with rSem := t.rSem + 1 } else t, .cancelWrite wBlocked)
  | .cancelWrite wBlocked =>
    let t := { t with wState.canceled := wBlocked }
    some (.plain, if wBlocked then { t with wSem := t.wSem + 1 } else t, .unlock)
  | .rBufLock arg rBuffer ok => some (.lock, t, .rBufBegin arg rBuffer ok)
  | .rBufBegin arg rBuffer ok =>
    some (.plain, { t with rState.flushingRBuffer := true }, .rBufInit arg rBuffer ok)
  -- Without memory for the new buffer the thresholds stay.
  | .rBufInit arg rBuffer ok =>
    let t := { t with rBuffer }
    some (.plain,
      if ok then { t with
        xoffThreshold := PERCENT (100 - XoffPercent) arg.toNat
        xonThreshold := PERCENT (100 - XonPercent) arg.toNat }
      else t, .rBufEnd)
  | .rBufEnd => some (.plain, { t with rState.flushingRBuffer := false }, .unlock)
  | .wBufLock wBuffer => some (.lock, t, .wBufBegin wBuffer)
  | .wBufBegin wBuffer =>
      some (.plain, { t with wState.flushingWBuffer := true }, .wBufInit wBuffer)
  | .wBufInit wBuffer => some (.plain, { t with wBuffer }, .wBufEnd)
  | .wBufEnd => some (.plain, { t with wState.flushingWBuffer := false }, .unlock)
  | .ctrlCharsLock ctrlChars => some (.lock, t, .ctrlCharsSet ctrlChars)
  | .ctrlCharsSet ctrlChars => some (.plain, { t with ctrlChars }, .unlock)
  | .ctrlCharsReadLock => some (.lock, t, .ctrlCharsRead)
  | .ctrlCharsRead => some (.plain, t, .unlock)
  | .unlock => some (.unlock, t, .out)

omit [CharBuffer B] in
/-- The thread is between a `_mutex.lock()` and its `_mutex.unlock()`. -/
def inside : TtyPc B → Bool
  | .readInCanceled _ | .readInBusy _ | .readInWriten _ | .readInIdle _ | .readInStartup _
  | .readInSpace _ | .readInUnlock _ => true
  | .writeOutCanceled _ | .writeOutEmpty _ | .writeOutAgain _ | .writeOutTake _ | .writeOutAfter
  | .writeOutUnlock | .writeOutLeave => true
  | .flushReadBegin _ | .flushReadReset _ | .flushReadCount _ | .flushReadSem _ | .flushReadXoff _
  | .flushReadEnd _ | .flushReadUnlock _ => true
  | .flushWriteBegin | .flushWriteReset | .flushWriteEnd | .flushWriteSem => true
  | .tandemRead | .tandemWrite | .cancelRead _ _ | .cancelWrite _ => true
  | .rBufBegin _ _ _ | .rBufInit _ _ _ | .rBufEnd | .wBufBegin _ | .wBufInit _ | .wBufEnd => true
  | .ctrlCharsSet _ | .ctrlCharsRead | .unlock => true
  | _ => false

theorem ioctlStep_inside (t : Tty B) (call : IoctlCall B) :
    (ioctlStep t call).2.inside = false := by
  cases call with
  | FIOSETCC ctrlChars => cases ctrlChars <;> rfl
  | FIOSETOPTIONS | FIORBUFSET | FIOWBUFSET | FIOGETCC =>
    dsimp only [ioctlStep]
    split_ifs <;> rfl
  | _ => rfl

omit [CharBuffer B] in
theorem afterFlush_inside (k : AfterFlush) : (afterFlush k : TtyPc B).inside = false := by
  cases k <;> rfl

/-- Only `_mutex.lock()` enters a section, and only `_mutex.unlock()` leaves one. -/
theorem next_inside {t t' : Tty B} {c c' : TtyPc B} {l : LockStep}
    (h : c.next t = some (l, t', c')) :
    match l with
    | .plain => c'.inside = c.inside
    | .lock => c.inside = false ∧ c'.inside = true
    | .unlock => c.inside = true ∧ c'.inside = false := by
  cases c with
  | out => cases h
  | ioctl call =>
    obtain ⟨rfl, heq⟩ := Prod.ext_iff.1 (Option.some.inj h)
    exact (congrArg (fun x => x.2.inside) heq).symm.trans (ioctlStep_inside t call)
  | flushReadUnlock k =>
    obtain ⟨rfl, rfl, rfl⟩ : _ ∧ _ ∧ _ := by simpa [next] using h
    exact ⟨rfl, afterFlush_inside k⟩
  | readIn buffer =>
    cases buffer with
    | nil => cases h; rfl
    | cons => simp only [next] at h; split_ifs at h; cases h; rfl
  | writeOut | writeOutTake =>
    obtain ⟨_, -, heq⟩ := Option.map_eq_some_iff.1 h
    cases heq
    rfl
  | readInCanceled | writeOutCanceled | writeOutEmpty | tandem =>
    simp only [next, Option.some.injEq, Prod.mk.injEq] at h
    obtain ⟨rfl, -, rfl⟩ := h
    dsimp only
    split_ifs <;> rfl
  -- All other steps have one successor.
  | _ =>
    simp only [next, Option.some.injEq, Prod.mk.injEq] at h
    obtain ⟨rfl, -, rfl⟩ := h
    first | rfl | exact ⟨rfl, rfl⟩

/-! ## Sections that are not interrupted -/

/-- The next `n` steps, none of which enters or leaves a section. -/
def goOn : ℕ → Tty B × TtyPc B → Option (Tty B × TtyPc B)
  | 0, x => some x
  | n + 1, (t, c) =>
    match c.next t with
    | some (.plain, x) => goOn n x
    | _ => none

variable {t t' : Tty B}

theorem goOn_flushReadBuffer {k : AfterFlush} :
    goOn 6 (t, .flushReadBegin k) = some (t.flushReadBuffer, .flushReadUnlock k) := rfl

theorem goOn_flushWriteBuffer : goOn 4 (t, .flushWriteBegin) = some (t.flushWriteBuffer, .unlock) :=
  rfl

/-- The section of `readIn`, if the terminal is not cancelled. -/
theorem goOn_readIn {buffer : List UInt8} {n : ℤ} (hcanceled : t.wState.canceled = false)
    (h : t.readIn buffer = some (n, t')) :
    goOn 6 ({ t with wSem := t.wSem - 1 }, .readInCanceled buffer) =
      some (t', .readInUnlock (buffer.drop n.toNat)) := by
  rw [Tty.readIn] at h
  by_cases hsem : t.wSem = 0
  · rw [if_pos hsem] at h
    cases h
  rw [if_neg hsem] at h
  dsimp only at h
  rw [if_neg (ne_true_of_eq_false hcanceled)] at h
  obtain ⟨rfl, rfl⟩ := Prod.ext_iff.1 (Option.some.inj h)
  have htest : (TtyPc.readInCanceled buffer).next { t with wSem := t.wSem - 1 } =
      some (.plain, { t with wSem := t.wSem - 1 }, .readInBusy buffer) := by
    simp only [next, hcanceled]
    rfl
  simp only [goOn, htest]
  rfl

/-- The section of `writeOut`, if the terminal is not cancelled and there is something to read. -/
theorem goOn_writeOut {maxByteSize : ℕ} {bytes : List UInt8} (hcanceled : t.rState.canceled = false)
    (h : t.writeOut maxByteSize = some (bytes, t')) :
    goOn 4 (t, .writeOutCanceled maxByteSize) = some (t', .writeOutUnlock) := by
  rw [Tty.writeOut, hcanceled, if_neg Bool.false_ne_true] at h
  split_ifs at h with hreaders hempty
  obtain ⟨⟨_, u⟩, htake, heq⟩ := Option.map_eq_some_iff.1 h
  obtain ⟨-, rfl⟩ := Prod.ext_iff.1 heq
  have htest : (TtyPc.writeOutCanceled maxByteSize).next t =
      some (.plain, t, .writeOutEmpty maxByteSize) := by
    simp only [next, hcanceled]
    rfl
  have htest' : (TtyPc.writeOutEmpty maxByteSize).next t =
      some (.plain, t, .writeOutTake maxByteSize) := by
    simp only [next, if_neg hempty]
  have hnext : (TtyPc.writeOutTake maxByteSize).next t = some (.plain, u, .writeOutAfter) := by
    simp only [next, htake]
    rfl
  simp only [goOn, htest, htest', hnext]
  rfl

end TtyPc

end DemoOs
