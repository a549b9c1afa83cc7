import DemoOs.Lib.Run
import DemoOs.Types

/-!
# The serial port

The driver of the UART (`uart.cpp`, `uart.h`): a shadow of the interrupt enable register, the mode,
and the registers it writes, of which the one at offset 1 is the interrupt enable register only
while the divisor latch is not accessed.

The interrupt routine clears `UART_IER_ETHREI` when there is nothing to be sent, and `startup` is to
set it again. But that does something in interrupt mode only, and the mode is `MODE_POLL` for ever:
`ioctl` enables the interrupts without changing it (`enableInterruptMode`). So where transmission
has been turned off, it is not turned on by `startup` (`transmission_iff`).
-/

namespace DemoOs.Uart

inductive ModeSet
  | MODE_POLL
  | MODE_INTERRUPT
  deriving DecidableEq

/-- The requests `ioctl` knows, and all others. -/
inductive IoctlSet
  | BAUD_SET
  | BAUD_GET
  | MODE_GET
  | MODE_SET
  | HUP
  | OPEN
  | other

/-! ## Registers -/

def UART_IER_ETHREI : UInt8 := 0x02
def UARR_IER_ERDAI : UInt8 := 0x01
def UART_IIR_INTID_MASK : UInt8 := 0x0e
def UART_IIR_THREI : UInt8 := 0x02
def UART_IIR_RDAI : UInt8 := 0x04
def UART_LCR_DLAB : UInt8 := 0x80
def UART_LSR_THRE : UInt8 := 0x20
def UART_MSR_CTS : UInt8 := 0x10
def UART_MSR_DCTS : UInt8 := 0x01
def UART_MCR_RTS : UInt8 := 0x02
def UART_MCR_DTR : UInt8 := 0x01

/-- `OptionSet::CLOCAL`. -/
def CLOCAL : UInt32 := 0x1

/-- The registers that are written. -/
inductive Reg
  | THR_DLL
  | IER_DLH
  | FCR
  | LCR
  | MCR

/-- What they hold; of the transmitter holding register, what has been written. -/
structure Registers where
  thr : List UInt8
  dll : UInt8
  dlh : UInt8
  ier : UInt8
  fcr : UInt8
  lcr : UInt8
  mcr : UInt8

/-- The first two registers are those of the divisor latch while `UART_LCR_DLAB` is set. -/
def Registers.write (r : Registers) (reg : Reg) (val : UInt8) : Registers :=
  match reg with
  | .THR_DLL => if r.lcr &&& UART_LCR_DLAB ≠ 0 then { r with dll := val }
      else { r with thr := r.thr ++ [val] }
  | .IER_DLH => if r.lcr &&& UART_LCR_DLAB ≠ 0 then { r with dlh := val } else { r with ier := val }
  | .FCR => { r with fcr := val }
  | .LCR => { r with lcr := val }
  | .MCR => { r with mcr := val }

/-! ## The driver -/

/-- The driver's data, and the registers. -/
structure State where
  frequency : ℕ
  baud : ℕ
  fifoLength : ℕ
  ier : UInt8
  mcr : UInt8
  lcr : UInt8
  fcr : UInt8
  mode : ModeSet
  options : UInt32
  regs : Registers

namespace State

def out8 (u : State) (reg : Reg) (val : UInt8) : State := { u with regs := u.regs.write reg val }

/-- The divisor. For a rate of zero the quotient is whatever the processor makes of it. -/
def division (u : State) (baud : ℕ) : ℕ := word (u.frequency + word (baud <<< 3)) >>> 4 / baud

def initCacheRegs (u : State) : State :=
  { u with mode := .MODE_POLL, ier := UART_IER_ETHREI ||| UARR_IER_ERDAI, lcr := 0x03 ||| 0x04,
           mcr := UART_MCR_DTR ||| UART_MCR_RTS ||| 0x08, fcr := 0xc0 ||| 0x04 ||| 0x02 ||| 0x01 }

/-- `out8` of the divisor, with access to the latch. -/
def outDivision (u : State) (lcr : UInt8) (division : ℕ) : State :=
  let u := u.out8 .LCR lcr
  let u := u.out8 .THR_DLL (UInt8.ofNat (division &&& 0xFF))
  let u := u.out8 .IER_DLH (UInt8.ofNat (division >>> 8 &&& 0xFF))
  u.out8 .LCR u.lcr

def init (u : State) (freq baud fifolen : ℕ) : State :=
  let u := { u with frequency := freq, baud := baud }
  let division := u.division baud
  let u := { u with fifoLength := fifolen }
  let u := u.initCacheRegs
  let u := u.out8 .IER_DLH 0
  let u := u.outDivision UART_LCR_DLAB division
  let u := u.out8 .FCR u.fcr
  u.out8 .MCR u.mcr

/-- `startup`, with the modem status it would read. -/
def startup (u : State) (msr : UInt8) : State :=
  if u.mode = .MODE_INTERRUPT then
    if u.options &&& CLOCAL ≠ 0 then
      let u := { u with ier := u.ier ||| UART_IER_ETHREI }
      u.out8 .IER_DLH u.ier
    else if msr &&& UART_MSR_CTS ≠ 0 then { u with ier := u.ier ||| UART_IER_ETHREI }
    else
      let u := { u with ier := u.ier &&& ~~~UART_IER_ETHREI }
      u.out8 .IER_DLH u.ier
  else u

def setBaud (u : State) (baud : ℕ) : State :=
  let division := u.division baud
  let u := { u with baud := baud }
  let u := u.out8 .IER_DLH 0
  let u := u.outDivision (UART_LCR_DLAB ||| u.lcr) division
  u.out8 .IER_DLH u.ier

def enableInterruptMode (u : State) : State := u.out8 .IER_DLH u.ier

def enablePollingMode (u : State) : State := u.out8 .IER_DLH 0

def hangUp (u : State) : State :=
  let u := u.out8 .IER_DLH 0
  let u := u.out8 .MCR (u.mcr ||| ~~~(UART_MCR_RTS ||| UART_MCR_DTR))
  let u := u.out8 .FCR (0x04 ||| 0x02)
  u.out8 .IER_DLH u.ier

def openPort (u : State) : State := ((u.out8 .MCR u.mcr).out8 .FCR u.fcr).out8 .LCR u.lcr

/-- `ioctl`: what it returns, what it stores at its argument, and the state. -/
def ioctl (u : State) (ioctlset : IoctlSet) (arg : ℕ) : ErrNo × Option ℕ × State :=
  match ioctlset with
  | .BAUD_SET => (.ENONE, none, u.setBaud arg)
  | .BAUD_GET => (.ENONE, some u.baud, u)
  | .MODE_GET => (.ENONE, some (u.ier.toNat &&& 2 <<< 6), u)
  | .MODE_SET =>
      (.ENONE, none, if arg = 2 then u.enableInterruptMode else if arg = 1
      then u.enablePollingMode else u)
  | .HUP => (.ENONE, none, u.hangUp)
  | .OPEN => (.ENONE, none, u.openPort)
  | .other => (.EINVAL, none, u)

end State

/-! ## The interrupt routine -/

/-- What an interrupt finds: the registers it reads, for every character received the modem status
    of each `startup` in the call that takes it (which may put an echo into the queue), and the
    characters to be sent. -/
structure Inputs where
  iir : UInt8
  lsr : UInt8
  msr : UInt8
  received : List (List UInt8)
  queued : List UInt8

namespace State

/-- The loop of the transmitter, for a number of characters. -/
def transmit : ℕ → List UInt8 → State → State
  | 0, _, u => u
  | _ + 1, [], u => { u with ier := u.ier &&& ~~~UART_IER_ETHREI }
  | n + 1, txd :: queued, u => transmit n queued (u.out8 .THR_DLL txd)

def uartIsr (u : State) (i : Inputs) : State :=
  let maskIIR := i.iir &&& UART_IIR_INTID_MASK
  let u :=
    if maskIIR = UART_IIR_RDAI then i.received.flatten.foldl startup u
    else if maskIIR = UART_IIR_THREI ∧ u.ier &&& UART_IER_ETHREI ≠ 0 ∧
      i.lsr &&& UART_LSR_THRE ≠ 0 then
      transmit u.fifoLength i.queued u
    else if i.iir = 0 then
      if i.msr &&& UART_MSR_DCTS ≠ 0 then
        if i.msr &&& UART_MSR_CTS ≠ 0 then { u with ier := u.ier ||| UART_IER_ETHREI }
        else { u with ier := u.ier &&& ~~~UART_IER_ETHREI }
      else u
    else u
  u.out8 .IER_DLH u.ier

end State

/-! ## Runs -/

/-- What happens to the port once it has been opened. -/
inductive Op
  | isr (i : Inputs)
  | setBaud (baud : ℕ)
  | startup (msr : UInt8)

def State.step (u : State) : Op → Option State
  | .isr i => some (u.uartIsr i)
  | .setBaud baud => some (u.setBaud baud)
  | .startup msr => some (u.startup msr)

/-- After `init` and `ioctl`. -/
def State.opened (u : State) (freq baud fifolen : ℕ) : State :=
  ((u.init freq baud fifolen).ioctl .MODE_SET 2).2.2

/-- The modem status of each `startup`. -/
def Op.startups : Op → List UInt8
  | .isr i => if i.iir &&& UART_IIR_INTID_MASK = UART_IIR_RDAI then i.received.flatten else []
  | .setBaud _ => []
  | .startup msr => [msr]

/-- `startup` may turn transmission on. -/
def State.MaySend (u : State) (msr : UInt8) : Prop :=
  u.options &&& CLOCAL ≠ 0 ∨ msr &&& UART_MSR_CTS ≠ 0

/-- After each `startup` that may turn transmission on, it is enabled. -/
def Correct (u : State) (op : Op) : Prop :=
  ∀ pre msr post, op.startups = pre ++ msr :: post → (pre.foldl State.startup u).MaySend msr →
    ((pre.foldl State.startup u).startup msr).regs.ier &&& UART_IER_ETHREI ≠ 0

/-- Before each of them, it has been enabled in the shadow. -/
def Enabled (u : State) (op : Op) : Prop :=
  ∀ msr ∈ op.startups, u.MaySend msr → u.ier &&& UART_IER_ETHREI ≠ 0

namespace State

variable {u : State} {msr : UInt8} {op : Op}

@[simp] theorem out8_mode (reg : Reg) (val : UInt8) : (u.out8 reg val).mode = u.mode := rfl

@[simp] theorem out8_lcr (reg : Reg) (val : UInt8) : (u.out8 reg val).lcr = u.lcr := rfl

@[simp] theorem out8_LCR_regs_lcr (val : UInt8) : (u.out8 .LCR val).regs.lcr = val := rfl

@[simp] theorem write_THR_DLL_lcr (r : Registers) (val : UInt8) :
    (r.write .THR_DLL val).lcr = r.lcr := by
  rw [Registers.write]
  split_ifs <;> rfl

/-- Interrupts are not used, and the divisor latch is not accessed. -/
structure Polling (u : State) : Prop where
  mode : u.mode = .MODE_POLL
  lcr : u.lcr &&& UART_LCR_DLAB = 0
  latch : u.regs.lcr &&& UART_LCR_DLAB = 0

/-- The register is as the shadow. -/
structure Shadowed (u : State) : Prop extends Polling u where
  ier : u.regs.ier = u.ier

theorem Polling.startup (h : u.Polling) (msr : UInt8) : u.startup msr = u := by
  rw [State.startup, h.mode, if_neg (by decide)]

theorem Polling.startups (h : u.Polling) (l : List UInt8) : l.foldl State.startup u = u := by
  induction l with
  | nil => rfl
  | cons msr l ih => rw [List.foldl_cons, h.startup, ih]

/-- Writing the shadow to the register. -/
theorem Polling.out8 (h : u.Polling) : (u.out8 .IER_DLH u.ier).Shadowed := by
  have hwrite : u.regs.write .IER_DLH u.ier = { u.regs with ier := u.ier } :=
    if_neg (not_not_intro h.latch)
  rw [State.out8, hwrite]
  exact ⟨⟨h.mode, h.lcr, h.latch⟩, rfl⟩

theorem Polling.setIer (h : u.Polling) (ier : UInt8) : ({ u with ier := ier } : State).Polling :=
  ⟨h.mode, h.lcr, h.latch⟩

theorem Polling.outDivision {lcr : UInt8} {division : ℕ} (hmode : u.mode = .MODE_POLL)
    (hlcr : u.lcr &&& UART_LCR_DLAB = 0) : (u.outDivision lcr division).Polling := by
  constructor
  · simp only [State.outDivision, out8_mode, hmode]
  · simp only [State.outDivision, out8_lcr, hlcr]
  · simp only [State.outDivision, out8_LCR_regs_lcr, out8_lcr, hlcr]

theorem Polling.setBaud (h : u.Polling) (baud : ℕ) : (u.setBaud baud).Shadowed := by
  have hlatch :
      ((({ u with baud := baud } : State).out8 .IER_DLH 0).outDivision (UART_LCR_DLAB ||| u.lcr)
      (u.division baud)).Polling := .outDivision h.mode h.lcr
  exact hlatch.out8

theorem Polling.transmit (h : u.Polling) (n : ℕ) (queued : List UInt8) :
    (State.transmit n queued u).Polling := by
  induction n generalizing u queued with
  | zero => exact h
  | succ n ih =>
    cases queued with
    | nil => exact h.setIer _
    | cons txd queued =>
      have hlatch : (u.regs.write .THR_DLL txd).lcr &&& UART_LCR_DLAB = 0 := by
        rw [write_THR_DLL_lcr]
        exact h.latch
      have hnext : (u.out8 .THR_DLL txd).Polling := ⟨h.mode, h.lcr, hlatch⟩
      exact ih hnext queued

/-- Whatever the interrupt routine does, it writes the shadow in the end. -/
theorem Polling.uartIsr (h : u.Polling) (i : Inputs) : (u.uartIsr i).Shadowed := by
  refine Polling.out8 ?_
  split_ifs
  · rw [h.startups]
    exact h
  · exact h.transmit _ _
  · exact h.setIer _
  · exact h.setIer _
  · exact h
  · exact h

theorem Shadowed.step {u' : State} (h : u.Shadowed) (hstep : u.step op = some u') :
    u'.Shadowed := by
  cases op with
  | isr i => exact Option.some_inj.1 hstep ▸ h.toPolling.uartIsr i
  | setBaud baud => exact Option.some_inj.1 hstep ▸ h.toPolling.setBaud baud
  | startup msr =>
    rw [State.step, h.startup] at hstep
    exact Option.some_inj.1 hstep ▸ h

theorem shadowed_opened (u : State) (freq baud fifolen : ℕ) :
    (u.opened freq baud fifolen).Shadowed := by
  have hlcr : (0x03 ||| 0x04 : UInt8) &&& UART_LCR_DLAB = 0 := by decide
  have hpolling : (u.init freq baud fifolen).Polling := ⟨rfl, hlcr, hlcr⟩
  exact hpolling.out8

/-- `startup` leaves transmission as it was. -/
theorem Shadowed.correct_iff (h : u.Shadowed) : Correct u op ↔ Enabled u op := by
  constructor
  · intro hc msr hmsr hmay
    obtain ⟨pre, post, heq⟩ := List.append_of_mem hmsr
    have hier := hc pre msr post heq
    rw [h.startups, h.startup, h.ier] at hier
    exact hier hmay
  · intro he pre msr post heq
    rw [h.startups, h.startup, h.ier]
    exact he msr (heq ▸ by simp)

end State

open State

/-- Transmission can always be restarted exactly if it is never turned off. -/
theorem transmission_iff (u : State) (freq baud fifolen : ℕ) (ops : List Op) :
    Admissible step Correct (u.opened freq baud fifolen) ops ↔
      Admissible step Enabled (u.opened freq baud fifolen) ops :=
  Admissible.iff (G := fun _ _ => True) (I := Shadowed) (fun h _ => h.correct_iff)
    (fun h _ _ hstep => h.step hstep)
    (shadowed_opened u freq baud fifolen) (.of_forall (fun _ _ => trivial) ops)

/-- There is nothing to be sent, and then there is. -/
theorem not_correct_startup : ¬Admissible step Correct
    (opened ⟨0, 0, 0, 0, 0, 0, 0, .MODE_POLL, 0, ⟨[], 0, 0, 0, 0, 0, 0⟩⟩ 1843200 115200 16)
    [.isr ⟨UART_IIR_THREI, UART_LSR_THRE, 0, [], []⟩, .startup UART_MSR_CTS] := by
  intro h
  exact ((h.2 _ rfl).1 [] UART_MSR_CTS [] rfl (.inr (by decide))) (by decide)

end DemoOs.Uart
