import DemoOs.Tty.Flow
import DemoOs.Tty.LineDiscipline

/-!
# Echo

What is received is meant to be echoed to the write buffer. But `buf = tyDev->_wBuffer` assigns to
the read buffer, to which `buf` refers, and `SRingBuffer::operator=` copies nothing: the echo is
written behind what is received.

A terminal that echoes goes through the same states as one that does not, but for its option and for
`_busy` (`silent`), as long as the echo goes nowhere. So it is harmless if none is produced, or
neither buffer takes any (`echo_iff`).
-/

namespace DemoOs

namespace Tty

open OptionFlags CtrlCharIndex CharBuffer

variable {B : Type} {t t' u v : Tty B} {c : UInt8} {flag : OptionFlags}

/-! ## Characters for the reader -/

/-- A character that is neither dropped nor taken for a signal or for flow control. -/
structure ForReader (t : Tty B) (c : UInt8) : Prop where
  hook : (t.protoHookFunc.any fun hook => hook t.protoArg = 0) = false
  flushing : t.rState.flushingRBuffer = false
  intr : ¬(t.masked c = t.ctrlChars VINTR ∧ isSet t.options OPT_ABORT ∧
    (t.globalAbortFunc || t.ctrlCHookFunc))
  quit : ¬(t.masked c = t.ctrlChars VQUIT ∧ isSet t.options OPT_MON_TRAP)
  flow : ¬((t.masked c = XOFF ∨ t.masked c = XON) ∧ isSet t.options OPT_TANDEM)
  unlocked : ¬(isSet t.options OPT_CRMOD ∧ isSet t.options OPT_LINE ∧ t.masked c = 0)

/-- A byte is for the reader if no hook takes it, and it is none of the special characters that
    act. -/
theorem forReader_iff : t.ForReader c ↔
    (t.protoHookFunc.any fun hook => hook t.protoArg = 0) = false ∧
    t.rState.flushingRBuffer = false ∧
    ¬(t.masked c = t.ctrlChars VINTR ∧ isSet t.options OPT_ABORT ∧
      (t.globalAbortFunc || t.ctrlCHookFunc)) ∧
    ¬(t.masked c = t.ctrlChars VQUIT ∧ isSet t.options OPT_MON_TRAP) ∧
    ¬((t.masked c = XOFF ∨ t.masked c = XON) ∧ isSet t.options OPT_TANDEM) ∧
    ¬(isSet t.options OPT_CRMOD ∧ isSet t.options OPT_LINE ∧ t.masked c = 0) :=
  ⟨fun h => ⟨h.hook, h.flushing, h.intr, h.quit, h.flow, h.unlocked⟩,
    fun h => ⟨h.1, h.2.1, h.2.2.1, h.2.2.2.1, h.2.2.2.2.1, h.2.2.2.2.2⟩⟩

instance instDecidableForReader (t : Tty B) (c : UInt8) : Decidable (t.ForReader c) :=
  decidable_of_iff' _ forReader_iff

variable [CharBuffer B]

/-- What is done with it before it is echoed. -/
def store (t : Tty B) (c : UInt8) : ErrNo × Bool × Bool × Tty B :=
  if isSet t.options OPT_LINE then t.receiveLine c else t.receiveRaw c

/-- A byte for the reader is stored, and echoed. -/
theorem receive_masked : t.receive (t.masked c) =
    (t.store (t.typed c)).2.2.2.finish (t.store (t.typed c)).1 (t.store (t.typed c)).2.1
      (t.store (t.typed c)).2.2.1 (t.typed c) := rfl

/-- The same of the whole call. -/
theorem ForReader.iSendDataToTty (h : t.ForReader c) : t.iSendDataToTty c =
    some ((t.store (t.typed c)).2.2.2.finish (t.store (t.typed c)).1 (t.store (t.typed c)).2.1
      (t.store (t.typed c)).2.2.1 (t.typed c)) := by
  obtain ⟨hhook, hflushing, hintr, hquit, hflow, hunlocked⟩ := h
  rw [← receive_masked, Tty.iSendDataToTty, hhook, if_neg Bool.false_ne_true]
  dsimp only
  rw [hflushing, if_neg Bool.false_ne_true, ← masked, if_neg hintr, if_neg hquit, if_neg hflow,
    if_neg hunlocked]

/-- Any other character leaves the buffers alone, if it gets through. -/
theorem iSendDataToTty_of_not_forReader {ret : ErrNo} (h : ¬t.ForReader c)
    (hsend : t.iSendDataToTty c = some (ret, t')) : t' = t ∨ ∃ x, t' = t.tyWrtXoff x := by
  unfold iSendDataToTty at hsend
  dsimp only at hsend
  rw [← masked] at hsend
  have hsame : ∀ {e : ErrNo} {w : Tty B}, some (e, w) = some (ret, t') → t' = w :=
    fun he => (Prod.mk.inj (Option.some.inj he)).2.symm
  split_ifs at hsend with hhook hflushing hintr hquit hflow hunlocked
  · exact .inl (hsame hsend)
  · exact .inl (hsame hsend)
  · exact .inl (hsame hsend)
  · exact .inl (hsame hsend)
  · exact .inr ⟨_, hsame hsend⟩
  · exact absurd ⟨Bool.eq_false_iff.2 hhook, Bool.eq_false_iff.2 hflushing, hintr, hquit, hflow,
      hunlocked⟩ h

/-! ## Without the echo -/

/-- The terminal as it would be if it did not echo: without the option, and idle. -/
def silent (t : Tty B) : Tty B :=
  { t with options := t.options &&& ~~~OPT_ECHO.val, wState.busy := false }

omit [CharBuffer B] in
/-- The other options are as they were. -/
theorem isSet_silent (h : flag ≠ OPT_ECHO) :
    isSet t.silent.options flag = isSet t.options flag := by
  have hval : ~~~OPT_ECHO.val &&& flag.val = flag.val := by
    cases flag <;> first | exact absurd rfl h | decide
  rw [isSet, isSet, silent, BitVec.and_assoc, hval]

omit [CharBuffer B] in
/-- Without echo, the option is not set. -/
theorem isSet_silent_echo : isSet t.silent.options OPT_ECHO = false := by
  have hval : ~~~OPT_ECHO.val &&& OPT_ECHO.val = 0#32 := by decide
  rw [isSet, silent, BitVec.and_assoc, hval, BitVec.and_zero]
  rfl

section

omit [CharBuffer B]

@[simp] theorem silent_ctrlChars : t.silent.ctrlChars = t.ctrlChars := rfl

@[simp] theorem silent_rBuffer : t.silent.rBuffer = t.rBuffer := rfl

@[simp] theorem silent_wBuffer : t.silent.wBuffer = t.wBuffer := rfl

@[simp] theorem silent_rState : t.silent.rState = t.rState := rfl

@[simp] theorem silent_bytesInUnfinishedLine :
    t.silent.bytesInUnfinishedLine = t.bytesInUnfinishedLine := rfl

@[simp] theorem silent_protoHookFunc : t.silent.protoHookFunc = t.protoHookFunc := rfl

@[simp] theorem silent_protoArg : t.silent.protoArg = t.protoArg := rfl

@[simp] theorem silent_globalAbortFunc : t.silent.globalAbortFunc = t.globalAbortFunc := rfl

@[simp] theorem silent_ctrlCHookFunc : t.silent.ctrlCHookFunc = t.ctrlCHookFunc := rfl

@[simp] theorem silent_xoffThreshold : t.silent.xoffThreshold = t.xoffThreshold := rfl

end

omit [CharBuffer B] in
/-- Silenced twice. -/
theorem silent_silent : t.silent.silent = t.silent := by
  have hval : ~~~OPT_ECHO.val &&& ~~~OPT_ECHO.val = ~~~OPT_ECHO.val := by decide
  rw [silent, silent, BitVec.and_assoc, hval]

omit [CharBuffer B] in
/-- The device is told in the same way, whether or not the transmitter is started on the
    occasion. -/
theorem silent_tyRdXoff (x : Bool) : (t.tyRdXoff x).silent =
    { t.silent with rState.xoff := x, rState.pending :=
      t.rState.pending || (t.rState.xoff != x && !t.xoffHookFunc) } := by
  rw [tyRdXoff]
  by_cases hx : t.rState.xoff = x
  · rw [if_neg (not_not.2 hx), ← hx, bne_self_eq_false, Bool.false_and, Bool.or_false]
    rfl
  · rw [if_pos hx, bne_iff_ne.2 hx]
    dsimp only
    split_ifs with hhook hbusy
    · have hnone : (!t.xoffHookFunc) = false := by rw [hhook]; rfl
      rw [hnone, Bool.and_false, Bool.or_false]
      rfl
    all_goals
      have hsome : (!t.xoffHookFunc) = true := by rw [Bool.eq_false_iff.2 hhook]; rfl
      rw [hsome, Bool.and_true, Bool.or_true]
      rfl

omit [CharBuffer B] in
/-- When the transmitter goes on, it is only held or not. -/
theorem silent_tyWrtXoff (x : Bool) :
    (t.tyWrtXoff x).silent = { t.silent with wState.xoff := x } := by
  rw [tyWrtXoff]
  by_cases hx : t.wState.xoff = x
  · rw [if_neg (not_not.2 hx), ← hx]
    rfl
  · rw [if_pos hx]
    dsimp only
    split_ifs <;> rfl

omit [CharBuffer B] in
/-- Starting the transmitter only makes it busy. -/
theorem silent_txStartup : t.txStartup.silent = t.silent := by
  rw [txStartup]
  split_ifs <;> rfl

/-- What is stored does not depend on the echo. -/
theorem insert_silent : t.silent.insert c = ((t.insert c).1, (t.insert c).2.silent) := by
  unfold insert
  dsimp only
  rw [silent_bytesInUnfinishedLine, silent_rBuffer]
  split_ifs <;> rfl

/-- Nor does what is edited. -/
theorem edit_silent : t.silent.edit c =
    ((t.edit c).1, (t.edit c).2.1, (t.edit c).2.2.1, (t.edit c).2.2.2.silent) := by
  unfold edit
  rw [insert_silent]
  dsimp only
  rw [silent_ctrlChars, silent_bytesInUnfinishedLine, silent_rBuffer]
  split_ifs <;> rfl

/-- Storing a character does not look at what makes the difference. -/
theorem store_silent : t.silent.store c =
    ((t.store c).1, (t.store c).2.1, (t.store c).2.2.1, (t.store c).2.2.2.silent) := by
  unfold store
  rw [isSet_silent (by decide)]
  split_ifs
  · unfold receiveLine
    rw [edit_silent]
    dsimp only
    split_ifs <;> rfl
  · rfl

/-- Nor does what comes behind the critical section. -/
theorem tandem_silent (ret : ErrNo) (releaseTask : Bool) :
    (t.silent.tandem ret releaseTask).1 = (t.tandem ret releaseTask).1 ∧
      (t.silent.tandem ret releaseTask).2.1 = (t.tandem ret releaseTask).2.1 ∧
      (t.silent.tandem ret releaseTask).2.2.silent = (t.tandem ret releaseTask).2.2.silent := by
  have htell : ∀ x, (t.silent.tyRdXoff x).silent = (t.tyRdXoff x).silent := by
    intro x
    rw [silent_tyRdXoff, silent_tyRdXoff, silent_silent]
    rfl
  unfold tandem
  rw [isSet_silent (by decide), isSet_silent (by decide), silent_rState, silent_rBuffer,
    silent_xoffThreshold]
  dsimp only
  split_ifs
  all_goals first | exact ⟨rfl, rfl, htell _⟩ | exact ⟨rfl, rfl, silent_silent⟩

/-- Nor does the end, if the echo is not produced or does not change the buffer. -/
theorem finish_silent {ret : ErrNo} {releaseTask erased : Bool}
    (h : (t.echoBack ret c erased).1 = ret ∧ (t.echoBack ret c erased).2.silent = t.silent) :
    (t.silent.finish ret releaseTask erased c).2.silent =
    (t.finish ret releaseTask erased c).2.silent := by
  have hquiet : t.silent.echoBack ret c erased = (ret, t.silent) := by
    rw [echoBack]
    rw [isSet_silent_echo]
    rfl
  obtain ⟨hret, hsilent⟩ := h
  obtain ⟨-, hrelease, htandem⟩ := tandem_silent (t := (t.echoBack ret c erased).2) ret releaseTask
  rw [hsilent] at hrelease htandem
  unfold finish
  dsimp only
  rw [hquiet, hret]
  dsimp only
  rw [hrelease]
  split_ifs
  · exact congrArg (fun w : Tty B => { w with rSem := w.rSem + 1 }) htandem
  · exact htandem

omit [CharBuffer B] in
/-- Nor the byte that is looked at. -/
theorem masked_silent : t.silent.masked c = t.masked c := by
  rw [masked, masked, isSet_silent (by decide)]

omit [CharBuffer B] in
/-- Nor the byte that is stored. -/
theorem typed_silent : t.silent.typed c = t.typed c := by
  rw [typed, typed, isSet_silent (by decide), masked_silent]

omit [CharBuffer B] in
/-- Nor whether it is for the reader. -/
theorem forReader_silent : t.silent.ForReader c ↔ t.ForReader c := by
  rw [forReader_iff, forReader_iff, masked_silent, isSet_silent (by decide : OPT_ABORT ≠ OPT_ECHO),
    isSet_silent (by decide : OPT_MON_TRAP ≠ OPT_ECHO),
      isSet_silent (by decide : OPT_TANDEM ≠ OPT_ECHO),
    isSet_silent (by decide : OPT_CRMOD ≠ OPT_ECHO), isSet_silent (by decide : OPT_LINE ≠ OPT_ECHO)]
  rfl

/-- The echo of a character for the reader, if there is any, goes nowhere. -/
def EchoLost (t : Tty B) (c : UInt8) : Prop :=
  let (ret, _, erased, u) := t.store (t.typed c)
  (u.echoBack ret (t.typed c) erased).1 = ret ∧
    (u.echoBack ret (t.typed c) erased).2.silent = u.silent

/-- A character received makes no difference that was not there. -/
theorem iSendDataToTty_silent (h : t.ForReader c → t.EchoLost c) :
    (t.silent.iSendDataToTty c).map (fun x => x.2.silent) =
      (t.iSendDataToTty c).map fun x => x.2.silent := by
  have hreceive : t.ForReader c → (t.silent.receive (t.masked c)).2.silent =
      (t.receive (t.masked c)).2.silent := by
    intro hreader
    rw [← masked_silent, receive_masked, typed_silent, store_silent, masked_silent, receive_masked]
    exact finish_silent (h hreader)
  unfold iSendDataToTty
  dsimp only
  rw [← masked, ← masked, masked_silent, isSet_silent (by decide : OPT_ABORT ≠ OPT_ECHO),
    isSet_silent (by decide : OPT_MON_TRAP ≠ OPT_ECHO),
      isSet_silent (by decide : OPT_TANDEM ≠ OPT_ECHO),
    isSet_silent (by decide : OPT_CRMOD ≠ OPT_ECHO), isSet_silent (by decide : OPT_LINE ≠ OPT_ECHO),
    silent_protoHookFunc, silent_protoArg, silent_rState, silent_ctrlChars, silent_globalAbortFunc,
    silent_ctrlCHookFunc]
  split_ifs with hhook hflushing hintr hquit hflow hunlocked
  · exact congrArg some silent_silent
  · exact congrArg some silent_silent
  · exact congrArg some silent_silent
  · exact congrArg some silent_silent
  · refine congrArg some ?_
    dsimp only
    rw [silent_tyWrtXoff, silent_tyWrtXoff, silent_silent]
  · rfl
  · exact congrArg some
      (hreceive ⟨Bool.eq_false_iff.2 hhook, Bool.eq_false_iff.2 hflushing, hintr, hquit,
        hflow, hunlocked⟩)

/-! ## What is echoed -/

/-- The bytes produced by echoing a character. -/
def echoing (t : Tty B) (c : UInt8) : List UInt8 :=
  if t.ForReader c then
    let (ret, _, erased, u) := t.store (t.typed c)
    if isSet u.options OPT_ECHO && ret == .ENONE && !u.wState.busy && !u.wState.flushingWBuffer then
      u.echo (t.typed c) erased
    else []
  else []

/-- What becomes of a terminal that receives the characters. -/
def receives (t : Tty B) (cs : List UInt8) : Option (Tty B) :=
  cs.foldlM (fun t c => (t.iSendDataToTty c).map Prod.snd) t

/-- The bytes echoed on the way. -/
def echoes (t : Tty B) : List UInt8 → List UInt8
  | [] => []
  | c :: cs => t.echoing c ++ (t.iSendDataToTty c).elim [] fun x => x.2.echoes cs

/-- The terminal with `OPT_ECHO` set or clear. -/
def setEcho (t : Tty B) (on : Bool) : Tty B :=
  { t with options := if on then t.options ||| OPT_ECHO.val else t.options &&& ~~~OPT_ECHO.val }

omit [CharBuffer B] in
/-- Something is echoed for every byte. -/
theorem echo_ne_nil (c : UInt8) (erased : Bool) : t.echo c erased ≠ [] := by
  rw [echo]
  split_ifs <;> exact List.cons_ne_nil _ _

omit [CharBuffer B] in
/-- At most three bytes are. -/
theorem length_echo_le (c : UInt8) (erased : Bool) : (t.echo c erased).length ≤ 3 := by
  rw [echo]
  split_ifs <;> simp

/-! ## What becomes of the buffers -/

/-- The state but for the buffer of the readers, the line and the permits. -/
structure SameOutput (t t' : Tty B) : Prop where
  options : t'.options = t.options
  rState : t'.rState = t.rState
  wState : t'.wState = t.wState
  wBuffer : t'.wBuffer = t.wBuffer
  xoffThreshold : t'.xoffThreshold = t.xoffThreshold
  xonThreshold : t'.xonThreshold = t.xonThreshold
  rBuffer : t'.rBuffer = t.rBuffer ∨ ∃ e, t'.rBuffer = (write t.rBuffer e).2

/-- Storing a byte does not touch the output. -/
theorem insert_frame : SameOutput t (t.insert c).2 := by
  unfold insert
  dsimp only
  split_ifs
  · exact ⟨rfl, rfl, rfl, rfl, rfl, rfl, .inr ⟨c, rfl⟩⟩
  · exact ⟨rfl, rfl, rfl, rfl, rfl, rfl, .inr ⟨c, rfl⟩⟩
  · exact ⟨rfl, rfl, rfl, rfl, rfl, rfl, .inl rfl⟩
  · exact ⟨rfl, rfl, rfl, rfl, rfl, rfl, .inl rfl⟩

/-- Editing does not. -/
theorem edit_frame : SameOutput t (t.edit c).2.2.2 := by
  have hkeep : ∀ n, SameOutput t { t with bytesInUnfinishedLine := n } := fun _ =>
    ⟨rfl, rfl, rfl, rfl, rfl, rfl, .inl rfl⟩
  unfold edit
  dsimp only
  repeat' split
  · exact hkeep _
  · exact hkeep _
  · exact hkeep _
  · exact hkeep _
  · exact hkeep _
  · exact insert_frame
  · exact hkeep _

/-- Neither does, whichever it is. -/
theorem store_frame : SameOutput t (t.store c).2.2.2 := by
  unfold store
  split
  · have hedit := edit_frame (t := t) (c := c)
    unfold receiveLine
    dsimp only
    split
    · exact ⟨hedit.1, hedit.2, hedit.3, hedit.4, hedit.5, hedit.6, hedit.7⟩
    · exact hedit
  · exact ⟨rfl, rfl, rfl, rfl, rfl, rfl, .inr ⟨c, rfl⟩⟩

omit [CharBuffer B] in
/-- The buffers are left alone when the other side is told to stop. -/
theorem tyRdXoff_buffers (x : Bool) :
    (t.tyRdXoff x).wBuffer = t.wBuffer ∧ (t.tyRdXoff x).rBuffer = t.rBuffer := by
  rw [tyRdXoff]
  dsimp only
  split_ifs <;> exact ⟨rfl, rfl⟩

/-- And by the tandem mode. -/
theorem tandem_buffers (ret : ErrNo) (releaseTask : Bool) :
    (t.tandem ret releaseTask).2.2.wBuffer = t.wBuffer ∧
      (t.tandem ret releaseTask).2.2.rBuffer = t.rBuffer := by
  rw [tandem]
  dsimp only
  split_ifs <;> first | exact ⟨rfl, rfl⟩ | exact tyRdXoff_buffers _

/-- The echo goes to the write buffer only, and nowhere while it is flushed. -/
theorem echoBack_buffers (ret : ErrNo) (erased : Bool) :
    (t.echoBack ret c erased).2.wBuffer = t.wBuffer ∧
      (t.echoBack ret c erased).2.rBuffer =
        (if isSet t.options OPT_ECHO && ret == .ENONE && !t.wState.busy && !t.wState.flushingWBuffer
        then
          t.echo c erased else []).foldl (fun buf c => (write buf c).2) t.rBuffer := by
  rw [echoBack]
  split_ifs
  · rw [txStartup]
    split_ifs <;> exact ⟨rfl, rfl⟩
  · exact ⟨rfl, rfl⟩

/-- The buffers are those of the section, with the echo behind what is read. -/
theorem finish_buffers (ret : ErrNo) (releaseTask erased : Bool) :
    (t.finish ret releaseTask erased c).2.wBuffer = t.wBuffer ∧
      (t.finish ret releaseTask erased c).2.rBuffer =
        (if isSet t.options OPT_ECHO && ret == .ENONE && !t.wState.busy && !t.wState.flushingWBuffer
        then
          t.echo c erased else []).foldl (fun buf c => (write buf c).2) t.rBuffer := by
  obtain ⟨hw, hr⟩ := echoBack_buffers (t := t) (c := c) ret erased
  rw [← hw, ← hr]
  rw [finish]
  dsimp only
  split_ifs <;> exact tandem_buffers _ _

/-- What receiving a character does to the buffers. -/
theorem received_buffers {ret : ErrNo} (h : t.iSendDataToTty c = some (ret, t')) :
    t'.wBuffer = t.wBuffer ∧ t'.rBuffer =
      if t.ForReader c then
        (t.echoing c).foldl (fun buf c => (write buf c).2) (t.store (t.typed c)).2.2.2.rBuffer
      else t.rBuffer := by
  by_cases hreader : t.ForReader c
  · rw [hreader.iSendDataToTty] at h
    obtain ⟨hw, hr⟩ := finish_buffers (t := (t.store (t.typed c)).2.2.2) (c := t.typed c)
      (t.store (t.typed c)).1 (t.store (t.typed c)).2.1 (t.store (t.typed c)).2.2.1
    rw [Option.some.inj h] at hw hr
    rw [if_pos hreader, echoing, if_pos hreader]
    exact ⟨hw.trans store_frame.wBuffer, hr⟩
  · rw [if_neg hreader]
    obtain rfl | ⟨x, rfl⟩ := iSendDataToTty_of_not_forReader hreader h
    · exact ⟨rfl, rfl⟩
    · rw [tyWrtXoff]
      dsimp only
      split_ifs <;> exact ⟨rfl, rfl⟩

/-! ## In a ring -/

section

variable {t t' u v : Tty (SRingBuffer UInt8)} {c : UInt8}

/-- There is no error when the character is stored. -/
def Accepts (t : Tty (SRingBuffer UInt8)) (c : UInt8) : Prop :=
  if isSet t.options OPT_LINE then
    match t.key c with
    | .erase | .kill => t.bytesInUnfinishedLine ≠ 0
    | .eof => True
    | .char _ => t.rBuffer.freeSpace ≥ t.bytesInUnfinishedLine + 3 ∧
        t.bytesInUnfinishedLine < MaxCanOn - 1
  else t.rBuffer.isFull = false

/-- The slots it needs. -/
def slotsFor (t : Tty (SRingBuffer UInt8)) (c : UInt8) : ℕ :=
  if isSet t.options OPT_LINE then
    match t.key c with
    | .char _ => 1
    | _ => 0
  else 1

/-- What is returned with a line is what the editing returns. -/
theorem receiveLine_fst : (t.receiveLine c).1 = (t.edit c).1 := rfl

/-- And the read buffer is what the editing makes it. -/
theorem receiveLine_rBuffer : (t.receiveLine c).2.2.2.rBuffer = (t.edit c).2.2.2.rBuffer := by
  rw [receiveLine]
  dsimp only
  split_ifs <;> rfl

/-- What the four kinds of keys do. -/
theorem edit_of_key : (t.edit c).1 = .ENONE ↔
    match t.key c with
    | .erase | .kill => t.bytesInUnfinishedLine ≠ 0
    | .eof => True
    | .char _ => t.rBuffer.freeSpace ≥ t.bytesInUnfinishedLine + 3 ∧
        t.bytesInUnfinishedLine < MaxCanOn - 1 := by
  unfold edit key
  dsimp only
  -- The tests of the source in their order.
  by_cases herase : c = 127 ∨ c = t.ctrlChars VERASE
  · rw [if_pos herase, if_pos herase]
    split_ifs with hcount <;> simp [hcount]
  rw [if_neg herase, if_neg herase]
  by_cases hkill : c = t.ctrlChars VKILL
  · rw [if_pos hkill, if_pos hkill]
    split_ifs with hcount <;> simp [hcount]
  rw [if_neg hkill, if_neg hkill]
  by_cases heof : c = t.ctrlChars VEOF
  · rw [if_pos heof, if_pos heof]
    simp
  rw [if_neg heof, if_neg heof]
  rw [insert]
  dsimp only
  change _ ↔ freeSpace t.rBuffer ≥ _ ∧ _
  split_ifs with htwo hroom hlf
  · simp [hroom]
  · simp [hroom]
  · simp [hroom]
  · refine iff_of_false (by simp) fun h => ?_
    omega

/-- A byte that is accepted is stored. -/
theorem store_fst_iff : (t.store c).1 = .ENONE ↔ t.Accepts c := by
  unfold store Accepts
  split_ifs with hline
  · rw [receiveLine_fst]
    exact edit_of_key
  · unfold receiveRaw
    dsimp only
    change (if (t.rBuffer.write c).1 then ErrNo.ENONE else .EFAULT) = .ENONE ↔ _
    rw [SRingBuffer.write]
    cases hfull : t.rBuffer.isFull with
    | true => exact iff_of_false (show ErrNo.EFAULT ≠ .ENONE by decide) (by decide)
    | false => exact iff_of_true rfl rfl

/-- A character that is accepted is written if it needs a slot. -/
theorem store_rBuffer (h : t.Accepts c) :
    (t.store c).2.2.2.rBuffer = if t.slotsFor c = 1 then (t.rBuffer.write c).2 else t.rBuffer := by
  unfold Accepts at h
  rw [store, slotsFor]
  split_ifs at h ⊢ with hline hone
  -- Of the keys of a line, a character alone needs a slot.
  · rw [receiveLine_rBuffer]
    unfold edit
    unfold key at h hone
    dsimp only
    by_cases herase : c = 127 ∨ c = t.ctrlChars VERASE
    · rw [if_pos herase] at hone
      cases hone
    rw [if_neg herase] at h hone ⊢
    by_cases hkill : c = t.ctrlChars VKILL
    · rw [if_pos hkill] at hone
      cases hone
    rw [if_neg hkill] at h hone ⊢
    by_cases heof : c = t.ctrlChars VEOF
    · rw [if_pos heof] at hone
      cases hone
    rw [if_neg heof] at h ⊢
    have htwo : freeSpace t.rBuffer ≥ 2 := by
      have := h.1
      change t.rBuffer.freeSpace ≥ 2
      omega
    have hroom : freeSpace t.rBuffer ≥ t.bytesInUnfinishedLine + 3 ∧
        t.bytesInUnfinishedLine < MaxCanOn - 1 := h
    rw [if_pos htwo]
    rw [insert]
    dsimp only
    rw [if_pos hroom]
    rfl
  · rw [receiveLine_rBuffer]
    unfold edit
    unfold key at h hone
    dsimp only
    split_ifs at h hone ⊢ <;> first | rfl | exact absurd rfl hone
  · rfl
  · exact absurd rfl ‹_›

/-- A character is echoed. -/
structure Echoes (t : Tty (SRingBuffer UInt8)) (c : UInt8) : Prop where
  echo : isSet t.options OPT_ECHO = true
  forReader : t.ForReader c
  accepts : t.Accepts (t.typed c)
  idle : t.wState.busy = false
  flushing : t.wState.flushingWBuffer = false

/-- Whether it is, can be told in the state before. -/
theorem echoing_eq : t.echoing c ≠ [] ↔ t.Echoes c := by
  rw [echoing]
  have hframe := store_frame (t := t) (c := t.typed c)
  dsimp only
  rw [hframe.options, hframe.wState]
  constructor
  · intro h
    split_ifs at h with hreader hecho
    · simp only [Bool.and_eq_true, beq_iff_eq, Bool.not_eq_true'] at hecho
      obtain ⟨⟨⟨hset, hret⟩, hidle⟩, hflushing⟩ := hecho
      exact ⟨hset, hreader, store_fst_iff.1 hret, hidle, hflushing⟩
    · exact absurd rfl h
    · exact absurd rfl h
  · rintro ⟨hset, hreader, haccepts, hidle, hflushing⟩
    rw [if_pos hreader, if_pos (by simp [hset, hidle, hflushing, store_fst_iff.2 haccepts])]
    exact echo_ne_nil _ _

/-- At most three bytes are echoed. -/
theorem length_echoing_le : (t.echoing c).length ≤ 3 := by
  rw [echoing]
  dsimp only
  split_ifs
  · exact length_echo_le _ _
  · exact Nat.zero_le 3
  · exact Nat.zero_le 3

/-! ## Runs -/

/-- The echo, if there is one, finds both buffers full, or taken for full. -/
def EchoHarmless (t : Tty (SRingBuffer UInt8)) (c : UInt8) : Prop :=
  t.Echoes c → t.rBuffer.rIndex ≤ t.rBuffer.wIndex + 1 + t.slotsFor (t.typed c) ∧
    t.wBuffer.isFull = true

/-- A read buffer as `init` and `FIORBUFSET` allow for, and a write buffer, with their indices in
    range. -/
structure InRange (t : Tty (SRingBuffer UInt8)) : Prop where
  rBuffer : t.rBuffer.InRange
  capacity : t.rBuffer.capacity ≤ MaxInput + 1
  wBuffer : t.wBuffer.InRange

/-- With the character in it, the buffer is taken for full if the writer gets next to the reader. -/
theorem InRange.store_isFull_iff (ht : t.InRange) (h : t.Accepts c) :
    (t.store c).2.2.2.rBuffer.isFull = true ↔
    t.rBuffer.rIndex ≤ t.rBuffer.wIndex + 1 + t.slotsFor c := by
  have hcap := ht.capacity
  rw [MaxInput] at hcap
  rw [store_rBuffer h]
  split_ifs with hone
  · rw [hone]
    by_cases hfull : t.rBuffer.isFull = true
    · have hle := (SRingBuffer.isFull_iff ht.rBuffer (by omega)).1 hfull
      rw [SRingBuffer.write, if_pos hfull]
      exact iff_of_true hfull (by omega)
    · rw [SRingBuffer.isFull_iff ht.rBuffer (by omega), Int.not_le] at hfull
      obtain ⟨b, hwrite, hb, -, hw, hr, hc⟩ := SRingBuffer.write_eq ht.rBuffer hfull c
      rw [hwrite, SRingBuffer.isFull_iff hb (by omega), hw, hr]
      omega
  · have hzero : t.slotsFor c = 0 := by
      unfold slotsFor at hone ⊢
      split_ifs at hone ⊢
      · cases hkey : t.key c with
        | char d =>
          rw [hkey] at hone
          exact absurd rfl hone
        | _ => rfl
      · exact absurd rfl hone
    rw [hzero, SRingBuffer.isFull_iff ht.rBuffer (by omega)]
    omega

/-- Indices stay in their buffers. -/
theorem InRange.received {ret : ErrNo} (ht : t.InRange) (h : t.iSendDataToTty c = some (ret, t')) :
    t'.InRange := by
  have hw : t'.wBuffer = t.wBuffer := (received_buffers h).1
  have hr : t'.rBuffer = if t.ForReader c then
      (t.store (t.typed c)).2.2.2.rBuffer.writes (t.echoing c) else t.rBuffer :=
        (received_buffers h).2
  have hstore : (t.store (t.typed c)).2.2.2.rBuffer.InRange ∧
      (t.store (t.typed c)).2.2.2.rBuffer.capacity = t.rBuffer.capacity := by
    rcases (store_frame (t := t) (c := t.typed c)).rBuffer with hsame | ⟨e, hwrite⟩
    · rw [hsame]
      exact ⟨ht.rBuffer, rfl⟩
    · rw [hwrite]
      exact ⟨(ht.rBuffer.write e).1, (ht.rBuffer.write e).2.1⟩
  obtain ⟨hrange, hcap, -⟩ := hstore.1.writes (t.echoing c)
  refine ⟨?_, ?_, hw ▸ ht.wBuffer⟩
  · rw [hr]
    split_ifs
    · exact hrange
    · exact ht.rBuffer
  · rw [hr]
    split_ifs
    · rw [hcap, hstore.2]
      exact ht.capacity
    · exact ht.capacity

/-- A harmless echo is lost. -/
theorem InRange.echoLost (ht : t.InRange) (h : t.EchoHarmless c) (hreader : t.ForReader c) :
    t.EchoLost c := by
  have hfull : t.echoing c ≠ [] → (t.store (t.typed c)).2.2.2.rBuffer.isFull = true := fun hne =>
    (ht.store_isFull_iff (echoing_eq.1 hne).accepts).2 (h (echoing_eq.1 hne)).1
  unfold echoing at hfull
  rw [if_pos hreader] at hfull
  rw [EchoLost]
  dsimp only at hfull ⊢
  generalize t.store (t.typed c) = x at hfull
  obtain ⟨ret, releaseTask, erased, u⟩ := x
  dsimp only at hfull ⊢
  rw [echoBack]
  split_ifs with hecho
  · rw [if_pos hecho] at hfull
    have hsame : u.echoed (u.echo (t.typed c) erased) = u := by
      have hwrites :=
        SRingBuffer.writes_of_isFull (hfull (echo_ne_nil _ _)) (u.echo (t.typed c) erased)
      exact congrArg (fun b => { u with rBuffer := b }) hwrites
    simp only [Bool.and_eq_true, beq_iff_eq] at hecho
    refine ⟨hecho.1.1.2.symm, ?_⟩
    dsimp only
    rw [hsame, silent_txStartup]
  · exact ⟨rfl, rfl⟩

/-- A terminal that echoes, and one that does not, are alike otherwise. -/
structure Alike (u v : Tty (SRingBuffer UInt8)) : Prop where
  silent : u.silent = v.silent
  echo : isSet u.options OPT_ECHO = true
  silenced : isSet v.options OPT_ECHO = false

/-- What the reader gets is the same. -/
theorem Alike.rBuffer (h : Alike u v) : u.rBuffer = v.rBuffer := by
  rw [← silent_rBuffer, h.silent, silent_rBuffer]

/-- Without the option, there is no echo to be lost. -/
theorem echoLost_of_silenced (h : isSet t.options OPT_ECHO = false) : t.EchoLost c := by
  have hoptions := (store_frame (t := t) (c := t.typed c)).options
  rw [← hoptions] at h
  unfold EchoLost echoBack
  dsimp only
  rw [h]
  exact ⟨rfl, rfl⟩

/-- The same characters get through to both. -/
theorem Alike.received (h : Alike u v) (hlost : u.ForReader c → u.EchoLost c) :
    (u.iSendDataToTty c).map (fun x => x.2.silent) = (v.iSendDataToTty c).map fun x =>
    x.2.silent := by
  rw [← iSendDataToTty_silent hlost, h.silent, iSendDataToTty_silent fun _ =>
    echoLost_of_silenced h.silenced]

/-- The property: the read buffers end up alike, and what is echoed on the way is in the write
    buffer. -/
def Apart (u v : Tty (SRingBuffer UInt8)) (cs : List UInt8) : Prop :=
  (u.receives cs).map rBuffer = (v.receives cs).map rBuffer ∧
    ∀ u', u.receives cs = some u' → u'.wBuffer = u.wBuffer.writes (u.echoes cs)

/-- A byte, and what comes after it. -/
theorem receives_cons {cs : List UInt8} :
    t.receives (c :: cs) = (t.iSendDataToTty c).bind fun x => x.2.receives cs := by
  rw [receives, List.foldlM_cons, Option.bind_eq_bind, Option.bind_map]
  rfl

/-- What the two do with a character, one after the other: they are alike again, or both stop. -/
theorem Alike.cases (h : Alike u v) (hlost : u.ForReader c → u.EchoLost c) :
    (u.iSendDataToTty c = none ∧ v.iSendDataToTty c = none) ∨
      ∃ ret ret' u' v', u.iSendDataToTty c = some (ret, u') ∧ v.iSendDataToTty c = some (ret', v') ∧
        Alike u' v' := by
  have hsame := h.received hlost
  cases hu : u.iSendDataToTty c with
  | none =>
    rw [hu, Option.map_none, eq_comm, Option.map_eq_none_iff] at hsame
    exact .inl ⟨rfl, hsame⟩
  | some x =>
    rw [hu, Option.map_some, eq_comm, Option.map_eq_some_iff] at hsame
    obtain ⟨y, hv, hsilent⟩ := hsame
    refine .inr ⟨x.1, y.1, x.2, y.2, rfl, hv, hsilent.symm, ?_, ?_⟩
    · rw [(iSendDataToTty_spec hu).1]
      exact h.echo
    · rw [(iSendDataToTty_spec hv).1]
      exact h.silenced

/-- A harmless echo leaves the write buffer as it is, which takes no part of it. -/
theorem EchoHarmless.writes (h : u.EchoHarmless c) :
    u.wBuffer.writes (u.echoing c) = u.wBuffer := by
  by_cases hnil : u.echoing c = []
  · rw [hnil]
    rfl
  · exact SRingBuffer.writes_of_isFull (h (echoing_eq.1 hnil)).2 _

/-- After a harmless echo it goes on as if from the beginning. -/
theorem apart_cons_iff {cs : List UInt8} {ret ret' : ErrNo} {u' v' : Tty (SRingBuffer UInt8)}
    (h : u.EchoHarmless c) (hu : u.iSendDataToTty c = some (ret, u'))
    (hv : v.iSendDataToTty c = some (ret', v')) :
    Apart u v (c :: cs) ↔ Apart u' v' cs := by
  have hechoes : u.wBuffer.writes (u.echoes (c :: cs)) = u'.wBuffer.writes (u'.echoes cs) := by
    rw [echoes, hu, SRingBuffer.writes, List.foldl_append]
    change (u.wBuffer.writes (u.echoing c)).writes (u'.echoes cs) = _
    rw [h.writes, (received_buffers hu).1]
  rw [Apart, Apart, receives_cons, receives_cons, hu, hv, hechoes]
  rfl

/-- Where there is an echo that is not lost, one of the buffers shows it. -/
theorem Alike.echoHarmless (h : Alike u v) (hu : u.InRange) (happart : Apart u v [c]) :
    u.EchoHarmless c := by
  intro hechoes
  have hne : u.echoing c ≠ [] := echoing_eq.2 hechoes
  have hlen := length_echoing_le (t := u) (c := c)
  -- The other terminal stores the same, and echoes nothing.
  have hreader : v.ForReader c := by
    rw [← forReader_silent, ← h.silent, forReader_silent]
    exact hechoes.forReader
  have htyped : v.typed c = u.typed c := by rw [← typed_silent, ← h.silent, typed_silent]
  have hstore : (v.store (v.typed c)).2.2.2.rBuffer = (u.store (u.typed c)).2.2.2.rBuffer := by
    have hsilent : (u.silent.store (u.typed c)).2.2.2.rBuffer =
        (v.silent.store (u.typed c)).2.2.2.rBuffer := by
      rw [h.silent]
    rw [store_silent, store_silent] at hsilent
    rw [htyped]
    exact hsilent.symm
  have hnil : v.echoing c = [] := by
    by_contra hv
    exact absurd (echoing_eq.1 hv).echo (ne_true_of_eq_false h.silenced)
  obtain ⟨ret, u', hu'⟩ : ∃ ret u', u.iSendDataToTty c = some (ret, u') :=
    ⟨_, _, hechoes.forReader.iSendDataToTty⟩
  obtain ⟨ret', v', hv'⟩ : ∃ ret v', v.iSendDataToTty c = some (ret, v') :=
    ⟨_, _, hreader.iSendDataToTty⟩
  obtain ⟨hw, hr⟩ := received_buffers hu'
  obtain ⟨-, hr'⟩ := received_buffers hv'
  obtain ⟨hread, hwrite⟩ := happart
  rw [receives_cons, receives_cons, hu', hv'] at hread
  replace hread : u'.rBuffer = v'.rBuffer := Option.some.inj hread
  constructor
  · rw [← hu.store_isFull_iff hechoes.accepts]
    by_contra hfull
    rw [hr, hr', if_pos hechoes.forReader, if_pos hreader, hstore, hnil] at hread
    have hrange : (u.store (u.typed c)).2.2.2.rBuffer.InRange := by
      rcases (store_frame (t := u) (c := u.typed c)).rBuffer with hsame | ⟨e, hsame⟩
      · exact hsame ▸ hu.rBuffer
      · exact hsame ▸ (hu.rBuffer.write e).1
    exact SRingBuffer.writes_ne hrange (Bool.eq_false_iff.2 hfull) hne (by omega) hread
  · by_contra hfull
    have hwrite := hwrite _ (by rw [receives_cons, hu']; rfl)
    rw [hw, echoes, hu'] at hwrite
    simp only [Option.elim_some, echoes, List.append_nil] at hwrite
    exact SRingBuffer.writes_ne hu.wBuffer (Bool.eq_false_iff.2 hfull) hne (by omega) hwrite.symm

/-- From terminals that are alike, the echo stays apart from the input through all prefixes of what
    is received if and only if it is harmless at every character. -/
theorem Alike.apart_iff (h : Alike u v) (hu : u.InRange) (cs : List UInt8) :
    (∀ cs', cs' <+: cs → Apart u v cs') ↔
      Admissible (fun t c => (t.iSendDataToTty c).map Prod.snd) EchoHarmless u cs := by
  -- By induction on the characters; the two ttys stay alike, echo or not.
  induction cs generalizing u v with
  | nil =>
    refine iff_of_true (fun cs' hcs' => ?_) trivial
    obtain rfl := List.prefix_nil.1 hcs'
    exact ⟨congrArg some h.rBuffer, fun u' hu' => by obtain rfl := Option.some.inj hu'; rfl⟩
  | cons c cs ih =>
    rw [Admissible]
    constructor
    · intro happart
      have hharmless := h.echoHarmless hu (happart [c] (List.prefix_append [c] cs))
      refine ⟨hharmless, fun u' hu' => ?_⟩
      obtain ⟨⟨ret, _⟩, hsend, rfl⟩ := Option.map_eq_some_iff.1 hu'
      -- Either both take the character or neither does.
      obtain ⟨hnone, -⟩ | ⟨_, _, u', v', hsend', hv, halike⟩ := h.cases (hu.echoLost hharmless)
      · rw [hnone] at hsend
        cases hsend
      · obtain ⟨rfl, rfl⟩ := Prod.mk.inj (Option.some.inj (hsend.symm.trans hsend'))
        refine (ih halike (hu.received hsend)).1 fun cs' hcs' => ?_
        exact (apart_cons_iff hharmless hsend hv).1
          (happart (c :: cs') (List.cons_prefix_cons.2 ⟨rfl, hcs'⟩))
    · rintro ⟨hharmless, hrest⟩ cs'' hcs''
      cases cs'' with
      | nil => exact ⟨congrArg some h.rBuffer,
          fun u' hu' => by obtain rfl := Option.some.inj hu'; rfl⟩
      | cons c' cs' =>
        obtain ⟨hc, hcs'⟩ := List.cons_prefix_cons.1 hcs''
        subst c'
        obtain ⟨hnone, hnone'⟩ | ⟨ret, _, u', v', hsend, hv, halike⟩ :=
          h.cases (hu.echoLost hharmless)
        · -- Neither gets any further.
          have hstop : u.receives (c :: cs') = none := by
            rw [receives_cons, hnone, Option.bind_none]
          have hstop' : v.receives (c :: cs') = none := by
            rw [receives_cons, hnone', Option.bind_none]
          rw [Apart, hstop, hstop']
          exact ⟨rfl, fun u' hu' => absurd hu'.symm (Option.some_ne_none u')⟩
        · rw [apart_cons_iff hharmless hsend hv]
          exact (ih halike (hu.received hsend)).2 (hrest u' (by rw [hsend]; rfl)) cs' hcs'

/-- The same terminal with the option, and without. -/
theorem alike_setEcho : Alike (t.setEcho true) (t.setEcho false) where
  silent := by
    have hset :
        (t.options ||| OPT_ECHO.val) &&& ~~~OPT_ECHO.val = t.options &&& ~~~OPT_ECHO.val := by
      ext i hi
      simp only [BitVec.getElem_and, BitVec.getElem_or, BitVec.getElem_not]
      cases t.options[i] <;> cases OPT_ECHO.val[i] <;> rfl
    have hclear :
        t.options &&& ~~~OPT_ECHO.val &&& ~~~OPT_ECHO.val = t.options &&& ~~~OPT_ECHO.val := by
      rw [BitVec.and_assoc, BitVec.and_self]
    simp only [silent, setEcho, if_true, Bool.false_eq_true, if_false, hset, hclear]
  echo := by
    have hset : (t.options ||| OPT_ECHO.val) &&& OPT_ECHO.val = OPT_ECHO.val := by
      ext i hi
      simp only [BitVec.getElem_and, BitVec.getElem_or]
      cases t.options[i] <;> cases OPT_ECHO.val[i] <;> rfl
    simp only [isSet, setEcho, if_true, hset]
    rfl
  silenced := isSet_silent_echo (t := t)

/-- The read buffer ends up as without the option, and the echo in the write buffer, through all
    prefixes of what is received, if and only if every echo on the way finds both buffers full. -/
theorem echo_iff (ht : t.InRange) (cs : List UInt8) :
    (∀ cs', cs' <+: cs → Apart (t.setEcho true) (t.setEcho false) cs') ↔
      Admissible (fun t c => (t.iSendDataToTty c).map Prod.snd) EchoHarmless (t.setEcho true) cs :=
  alike_setEcho.apart_iff ⟨ht.rBuffer, ht.capacity, ht.wBuffer⟩ cs

/-- A terminal with these buffers. -/
def withBuffers (rBuffer wBuffer : SRingBuffer UInt8) : Tty (SRingBuffer UInt8) :=
  { blank rBuffer with wBuffer }

/-- A buffer with room for the character and no more. -/
theorem echo_lost : Apart ((withBuffers ⟨2, 0, 8, fun _ => 0⟩ ⟨0, 0, 8, fun _ => 0⟩).setEcho true)
    ((withBuffers ⟨2, 0, 8, fun _ => 0⟩ ⟨0, 0, 8, fun _ => 0⟩).setEcho false) [0x61] :=
  (echo_iff (t := withBuffers ⟨2, 0, 8, fun _ => 0⟩ ⟨0, 0, 8, fun _ => 0⟩)
    ⟨⟨by decide, by decide, by decide, by decide, by decide⟩, by decide,
      ⟨by decide, by decide, by decide, by decide, by decide⟩⟩ [0x61]).2
    ⟨fun _ => ⟨by decide, by decide⟩, fun _ _ => trivial⟩ [0x61] List.prefix_rfl

/-- With more room, the character is in the read buffer twice, and nothing is in the write
    buffer. -/
theorem not_apart : ∃ u v : Tty (SRingBuffer UInt8),
    ((withBuffers ⟨5, 0, 8, fun _ => 0⟩ ⟨5, 0, 8, fun _ => 0⟩).setEcho true).receives
    [0x61] = some u ∧
    ((withBuffers ⟨5, 0, 8, fun _ => 0⟩ ⟨5, 0, 8, fun _ => 0⟩).setEcho false).receives
    [0x61] = some v ∧
    u.rBuffer.contents = [0, 0, 0, 0x61, 0x61] ∧ v.rBuffer.contents = [0, 0, 0, 0x61] ∧
    u.wBuffer.contents = [0, 0, 0] ∧
    ¬Apart ((withBuffers ⟨5, 0, 8, fun _ => 0⟩ ⟨5, 0, 8, fun _ => 0⟩).setEcho true)
      ((withBuffers ⟨5, 0, 8, fun _ => 0⟩ ⟨5, 0, 8, fun _ => 0⟩).setEcho false) [0x61] := by
  refine ⟨_, _, rfl, rfl, by decide, by decide, by decide, fun happart => ?_⟩
  have hw : (2 : ℤ) = 1 := congrArg SRingBuffer.wIndex (Option.some.inj happart.1)
  exact absurd hw (by decide)

end

end Tty

end DemoOs
