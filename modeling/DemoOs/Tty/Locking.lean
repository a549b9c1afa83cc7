import DemoOs.Tty.Hysteresis
import DemoOs.Lib.Locks

/-!
# Locking

What the functions of a terminal do with `_mutex` and `_spinlock`, which they lock and unlock by
hand, and with the buffers (`acts`). Each way out of a function unlocks what has been locked, except
for two: who receives a zero with `OPT_CRMOD` and `OPT_LINE` unlocks both, goes on without them, and
unlocks them again; and `teminate` unlocks the spinlock, which it has not locked.

The buffers are accessed with the locks held that are acquired at the entry, unless a device is to
be stopped or restarted: the free space is then read with the spinlock alone, while readers hold the
mutex (`disciplined_acts_iff`).
-/

namespace DemoOs

inductive TtyLock
  | mutex
  | spinlock
  deriving DecidableEq

inductive TtyBuffer
  | rBuffer
  | wBuffer
  deriving DecidableEq

abbrev TtyAct := LockAct TtyLock TtyBuffer

inductive LockingCall
  | iSendDataToTty (inChar : UInt8)
  | iTransmitDataOfTty
  | tyRdXoff (xoff : Bool)
  | tyWrtXoff (xoff : Bool)
  | txStartup
  | flushReadBuffer
  | flushWriteBuffer
  | teminate

namespace Tty

open OptionFlags CtrlCharIndex CharBuffer LockAct

variable {B : Type} (t : Tty B)

/-! ## The actions -/

/-- `s.unlock()` and `m.unlock()`. -/
def leave : List TtyAct := [release .spinlock, release .mutex]

def txStartupActs : List TtyAct :=
  if !t.wState.busy then [acquire .spinlock, release .spinlock] else []

def tyRdXoffActs (xoff : Bool) : List TtyAct :=
  acquire .spinlock ::
    if t.rState.xoff ≠ xoff then
      if !t.xoffHookFunc then
        -- Behind it, the transmitter is started.
        if !t.wState.busy then [release .spinlock]
        else [release .spinlock]
      else [release .spinlock]
    else [release .spinlock]

def tyWrtXoffActs (xoff : Bool) : List TtyAct :=
  acquire .spinlock ::
    if t.wState.xoff ≠ xoff then
      if !xoff && !t.wState.busy then [release .spinlock]
      else [release .spinlock]
    else [release .spinlock]

def flushWriteBufferActs : List TtyAct := [acquire .mutex, access .wBuffer, release .mutex]

/-- The spinlock is unlocked without having been locked. -/
def teminateActs : List TtyAct :=
  [acquire .mutex, release .spinlock, access .wBuffer, release .mutex]

variable [CharBuffer B]

def flushReadBufferActs : List TtyAct :=
  let u := { t with
    rState.flushingRBuffer := true, rBuffer := reset t.rBuffer,
      bytesInUnfinishedLine := 0, rSem := 0 }
  acquire .mutex :: access .rBuffer :: (u.tyRdXoffActs false ++ [release .mutex])

/-- `iTransmitDataOfTty` at its label `there`, and behind it. -/
def transmittedActs : List TtyAct :=
  access .wBuffer :: if freeSpace t.wBuffer ≥ t.wrtThreshold then leave else leave

def iTransmitDataOfTtyActs : List TtyAct :=
  acquire .mutex :: acquire .spinlock ::
    if t.rState.pending then leave
    else if t.wState.xoff || t.wState.flushingWBuffer then leave
    else if t.wState.cr then t.transmittedActs
    else
      access .wBuffer ::
        match read t.wBuffer with
        | (none, _) => leave
        | (some _, wBuffer) => transmittedActs { t with wBuffer }

/-- The accesses on storing a character: with `OPT_LINE`, to the free space and to write the
    character if it is not for editing and there is room; without, to write the character and to the
    length. -/
def storeAccesses (inChar : UInt8) : List TtyBuffer :=
  if isSet t.options OPT_LINE then
    .rBuffer ::
      if inChar = 127 ∨ inChar = t.ctrlChars VERASE then []
      else if inChar = t.ctrlChars VKILL then []
      else if inChar = t.ctrlChars VEOF then []
      else if freeSpace t.rBuffer ≥ 2 then
        if freeSpace t.rBuffer ≥ t.bytesInUnfinishedLine + 3 ∧
          t.bytesInUnfinishedLine < MaxCanOn - 1 then
          [.rBuffer]
        else if inChar = LF ∧ t.bytesInUnfinishedLine ≠ 0 then [.rBuffer]
        else []
      else []
  else [.rBuffer, .rBuffer]

/-- Whether a character is echoed. -/
def echoAllowed (ret : ErrNo) : Bool :=
  isSet t.options OPT_ECHO && ret == .ENONE && !t.wState.busy && !t.wState.flushingWBuffer

/-- The writes of the echo, which go to the buffer of the readers. -/
def echoAccesses (ret : ErrNo) (inChar : UInt8) (erased : Bool) : List TtyBuffer :=
  if t.echoAllowed ret then (t.echo inChar erased).map fun _ => .rBuffer else []

/-- Behind the critical section of `iSendDataToTty`. -/
def tandemActs : List TtyAct :=
  if isSet t.options OPT_TANDEM && !isSet t.options OPT_LINE then
    acquire .spinlock ::
      if t.rState.flushingRBuffer then [release .spinlock]
      else
        access .rBuffer :: release .spinlock ::
          if !t.rState.xoff then
            if freeSpace t.rBuffer < t.xoffThreshold then t.tyRdXoffActs true else []
          else if freeSpace t.rBuffer > t.xoffThreshold then t.tyRdXoffActs false
          else []
  else []

/-- A character that is for the reader. -/
def receiveActs (inChar : UInt8) : List TtyAct :=
  let inChar := if isSet t.options OPT_CRMOD && inChar == CR then LF else inChar
  let (ret, _, erased, u) := t.store inChar
  (t.storeAccesses inChar ++ u.echoAccesses ret inChar erased).map access ++ leave ++
    (if u.echoAllowed ret then (u.echoed (u.echo inChar erased)).txStartupActs else []) ++
    (u.echoBack ret inChar erased).2.tandemActs

/-- A zero with `OPT_CRMOD` and `OPT_LINE` is let through by mistake: there is no `return` behind
    the unlocking. -/
def iSendDataToTtyActs (inChar : UInt8) : List TtyAct :=
  if t.protoHookFunc.any fun hook => hook t.protoArg = 0 then []
  else
    let opts := t.options
    let inChar := if isSet opts OPT_7_BIT then inChar &&& 0x7f else inChar
    acquire .mutex :: acquire .spinlock ::
      if t.rState.flushingRBuffer then leave
      else if inChar = t.ctrlChars VINTR ∧ isSet opts OPT_ABORT ∧
        (t.globalAbortFunc || t.ctrlCHookFunc)
      then leave
      else if inChar = t.ctrlChars VQUIT ∧ isSet opts OPT_MON_TRAP then leave
      else if (inChar = XOFF ∨ inChar = XON) ∧ isSet opts OPT_TANDEM then
        leave ++ t.tyWrtXoffActs (inChar == XOFF)
      else
        (if isSet opts OPT_CRMOD ∧ isSet opts OPT_LINE ∧ inChar = 0 then leave else []) ++
          t.receiveActs inChar

def acts : LockingCall → List TtyAct
  | .iSendDataToTty inChar => t.iSendDataToTtyActs inChar
  | .iTransmitDataOfTty => t.iTransmitDataOfTtyActs
  | .tyRdXoff xoff => t.tyRdXoffActs xoff
  | .tyWrtXoff xoff => t.tyWrtXoffActs xoff
  | .txStartup => t.txStartupActs
  | .flushReadBuffer => t.flushReadBufferActs
  | .flushWriteBuffer => flushWriteBufferActs
  | .teminate => teminateActs

/-! ## Discipline -/

variable {t} {c : UInt8}

/-- A character that is neither dropped nor taken for a signal or for flow control. -/
structure Reaches (t : Tty B) (c : UInt8) : Prop where
  hook : ¬(t.protoHookFunc.any fun hook => hook t.protoArg = 0) = true
  flushing : t.rState.flushingRBuffer = false
  intr : ¬(t.masked c = t.ctrlChars VINTR ∧ isSet t.options OPT_ABORT ∧
    (t.globalAbortFunc || t.ctrlCHookFunc))
  quit : ¬(t.masked c = t.ctrlChars VQUIT ∧ isSet t.options OPT_MON_TRAP)
  flow : ¬((t.masked c = XOFF ∨ t.masked c = XON) ∧ isSet t.options OPT_TANDEM)

/-- The call does with the locks what it should. -/
def InOrder (t : Tty B) : LockingCall → Prop
  | .iSendDataToTty c => t.Reaches c →
      ¬(isSet t.options OPT_CRMOD ∧ isSet t.options OPT_LINE ∧ t.masked c = 0) ∧
        (isSet t.options OPT_TANDEM && !isSet t.options OPT_LINE) = false
  | .teminate => False
  | _ => True

omit [CharBuffer B] in
theorem neutral_tyRdXoffActs (x : Bool) : Neutral (t.tyRdXoffActs x) := by
  rw [tyRdXoffActs]
  split_ifs <;> exact neutral_locked _

omit [CharBuffer B] in
theorem neutral_tyWrtXoffActs (x : Bool) : Neutral (t.tyWrtXoffActs x) := by
  rw [tyWrtXoffActs]
  split_ifs <;> exact neutral_locked _

omit [CharBuffer B] in
theorem neutral_txStartupActs : Neutral t.txStartupActs := by
  rw [txStartupActs]
  split_ifs
  · exact neutral_locked _
  · exact neutral_nil

/-- Accesses with both locks held. -/
theorem restores_both (as : List TtyBuffer) (held : TtyLock → ℕ) : Restores [.mutex, .spinlock] held
    (acquire .mutex :: acquire .spinlock :: (as.map access ++ leave)) := by
  have hheld : ∀ l ∈ [TtyLock.mutex, .spinlock], 0 < Function.update
      (Function.update held .mutex (held .mutex + 1)) .spinlock
        (Function.update held .mutex (held .mutex + 1) .spinlock + 1) l := by
    intro l _
    cases l with
    | mutex =>
      rw [Function.update_of_ne (by decide), Function.update_self]
      exact Nat.succ_pos _
    | spinlock =>
      rw [Function.update_self]
      exact Nat.succ_pos _
  have h := ((restores_accesses hheld as).locked).locked
  rwa [List.cons_append, List.append_assoc] at h

theorem disciplined_of_both (as : List TtyBuffer) {rest : List TtyAct} (hrest : Neutral rest) :
    Disciplined (acquire .mutex :: acquire .spinlock :: (as.map access ++ leave) ++ rest) := by
  refine Restores.disciplined ?_
  have hentry : entry (acquire .mutex :: acquire .spinlock :: (as.map access ++ leave) ++ rest) =
      [TtyLock.mutex, .spinlock] := by
    cases as <;> rfl
  rw [hentry]
  exact (restores_both as _).append (hrest _ _)

theorem disciplined_iTransmitDataOfTtyActs : Disciplined t.iTransmitDataOfTtyActs := by
  have hnone := disciplined_of_both [] neutral_nil
  have hone := disciplined_of_both [.wBuffer] neutral_nil
  have htwo := disciplined_of_both [.wBuffer, .wBuffer] neutral_nil
  rw [iTransmitDataOfTtyActs]
  split_ifs
  · exact hnone
  · exact hnone
  · rw [transmittedActs]
    split_ifs <;> exact hone
  · rcases read t.wBuffer with ⟨_ | c, wBuffer⟩
    · exact hone
    · dsimp only
      rw [transmittedActs]
      split_ifs <;> exact htwo

theorem disciplined_flushReadBufferActs : Disciplined t.flushReadBufferActs := by
  have hneutral := neutral_tyRdXoffActs (t := { t with
    rState.flushingRBuffer := true, rBuffer := reset t.rBuffer, bytesInUnfinishedLine := 0,
      rSem := 0 }) false
  refine Restores.disciplined (Restores.locked (p := access .rBuffer :: _) ?_)
  refine Restores.append (p := [access .rBuffer]) ?_ (hneutral _ _)
  exact restores_accesses (fun _ => held_of_mem_singleton) [TtyBuffer.rBuffer]

/-- What is done for a character that is for the reader: accesses, with `OPT_LINE` at least one, and
    behind the critical section what does not access the buffers, unless a device is to be stopped
    or restarted. -/
theorem receiveActs_eq : ∃ as part, ∃ v : Tty B,
    t.receiveActs c = as.map access ++ leave ++ part ++ v.tandemActs ∧ Neutral part ∧
      v.options = t.options ∧ v.rState.flushingRBuffer = t.rState.flushingRBuffer ∧
      (isSet t.options OPT_LINE = true → ∃ rest, as = .rBuffer :: rest) := by
  have hform : ∃ d, t.receiveActs c = (t.storeAccesses d ++
      (t.store d).2.2.2.echoAccesses (t.store d).1 d (t.store d).2.2.1).map access ++ leave ++
      (if (t.store d).2.2.2.echoAllowed (t.store d).1 then
        ((t.store d).2.2.2.echoed ((t.store d).2.2.2.echo d (t.store d).2.2.1)).txStartupActs
          else []) ++
      ((t.store d).2.2.2.echoBack (t.store d).1 d (t.store d).2.2.1).2.tandemActs := ⟨_, rfl⟩
  obtain ⟨d, hform⟩ := hform
  have hstore := store_frame (t := t) (c := d)
  obtain ⟨-, hoptions, hflushing⟩ := echoBack_flow (t := (t.store d).2.2.2) (c := d) (t.store d).1
    (t.store d).2.2.1
  refine ⟨_, _, _, hform, ?_, hoptions.trans hstore.options, ?_, fun hline => ?_⟩
  · split_ifs
    · exact neutral_txStartupActs
    · exact neutral_nil
  · rw [hflushing, hstore.rState]
  · rw [storeAccesses, if_pos hline]
    exact ⟨_, rfl⟩

theorem Reaches.acts_eq (h : t.Reaches c) :
    t.iSendDataToTtyActs c = acquire .mutex :: acquire .spinlock ::
    ((if isSet t.options OPT_CRMOD ∧ isSet t.options OPT_LINE ∧
      t.masked c = 0 then leave else []) ++
      t.receiveActs (t.masked c)) := by
  obtain ⟨hhook, hflushing, hintr, hquit, hflow⟩ := h
  rw [iSendDataToTtyActs, if_neg hhook]
  dsimp only
  rw [hflushing, if_neg Bool.false_ne_true, ← masked, if_neg hintr, if_neg hquit, if_neg hflow]

/-- Any other character is dropped or taken before the buffers are accessed. -/
theorem disciplined_of_not_reaches (h : ¬t.Reaches c) : Disciplined (t.iSendDataToTtyActs c) := by
  have hleave := disciplined_of_both [] neutral_nil
  rw [iSendDataToTtyActs]
  dsimp only
  rw [← masked]
  split_ifs with hhook hflushing hintr hquit hflow
  · exact neutral_nil.disciplined
  · exact hleave
  · exact hleave
  · exact hleave
  · exact disciplined_of_both [] (neutral_tyWrtXoffActs _)
  · exact absurd ⟨hhook, Bool.eq_false_iff.2 hflushing, hintr, hquit, hflow⟩ h
  · exact absurd ⟨hhook, Bool.eq_false_iff.2 hflushing, hintr, hquit, hflow⟩ h

/-- A zero with `OPT_CRMOD` and `OPT_LINE`: the free space is read without a lock. -/
theorem not_disciplined_zero (h : t.Reaches c)
    (hzero : isSet t.options OPT_CRMOD ∧ isSet t.options OPT_LINE ∧ t.masked c = 0) :
    ¬Disciplined (t.iSendDataToTtyActs c) := by
  intro hdisciplined
  obtain ⟨as, part, v, hacts, -, -, -, hline⟩ := receiveActs_eq (t := t) (c := t.masked c)
  obtain ⟨rest, rfl⟩ := hline hzero.2.1
  rw [h.acts_eq, if_pos hzero, hacts] at hdisciplined
  have hheld := hdisciplined.guarded
    [acquire .mutex, acquire .spinlock, release .spinlock,
      release .mutex] .rBuffer _ rfl .mutex (.head _)
  exact absurd hheld (by decide)

/-- With `OPT_TANDEM` and without `OPT_LINE`: the free space is read with the spinlock alone. -/
theorem not_disciplined_tandem (h : t.Reaches c)
    (htandem : (isSet t.options OPT_TANDEM && !isSet t.options OPT_LINE) = true) :
    ¬Disciplined (t.iSendDataToTtyActs c) := by
  intro hdisciplined
  have hline : isSet t.options OPT_LINE = false := by
    rw [Bool.and_eq_true, Bool.not_eq_true'] at htandem
    exact htandem.2
  have hzero : ¬(isSet t.options OPT_CRMOD ∧ isSet t.options OPT_LINE ∧ t.masked c = 0) :=
    fun hzero => absurd (hline.symm.trans hzero.2.1) Bool.false_ne_true
  obtain ⟨as, part, v, hacts, hpart, hoptions, hflushing, -⟩ :=
    receiveActs_eq (t := t) (c := t.masked c)
  obtain ⟨rest, hv⟩ : ∃ rest, v.tandemActs = acquire .spinlock :: access .rBuffer :: rest := by
    rw [tandemActs, hoptions, if_pos htandem, hflushing, h.flushing, if_neg Bool.false_ne_true]
    exact ⟨_, rfl⟩
  -- Before the spinlock is locked again, everything is unlocked.
  have hcritical := (restores_both as (fun _ => 0)).append (hpart [.mutex, .spinlock] _)
  have hacts' :
      t.iSendDataToTtyActs c =
      (acquire .mutex :: acquire .spinlock :: (as.map access ++ leave) ++ part) ++
      acquire .spinlock :: access .rBuffer :: rest := by
    rw [h.acts_eq, if_neg hzero, hacts, hv]
    rfl
  rw [hacts'] at hdisciplined
  have hallowed := (Allowed.append.1 (disciplined_iff.1 hdisciplined).1).2
  rw [hcritical.2] at hallowed
  have hheld := hallowed.2.1 .mutex (.head _)
  rw [hold, Function.update_of_ne (by decide)] at hheld
  exact Nat.lt_irrefl 0 hheld

theorem disciplined_iSendDataToTtyActs_iff :
    Disciplined (t.iSendDataToTtyActs c) ↔ t.InOrder (.iSendDataToTty c) := by
  constructor
  · intro h hreaches
    refine ⟨fun hzero => not_disciplined_zero hreaches hzero h, ?_⟩
    by_contra htandem
    exact not_disciplined_tandem hreaches (Bool.not_eq_false _ ▸ htandem) h
  · intro h
    by_cases hreaches : t.Reaches c
    · obtain ⟨hzero, htandem⟩ := h hreaches
      obtain ⟨as, part, v, hacts, hpart, hoptions, -⟩ := receiveActs_eq (t := t) (c := t.masked c)
      have hv : v.tandemActs = [] := by
        rw [tandemActs, hoptions, htandem, if_neg Bool.false_ne_true]
      rw [hreaches.acts_eq, if_neg hzero, hacts, hv, List.append_nil]
      exact disciplined_of_both as hpart
    · exact disciplined_of_not_reaches hreaches

/-- Without regard to the accesses, stopping and restarting a device may be done anywhere. -/
theorem restores_tandemActs (held : TtyLock → ℕ) : Restores [] held t.tandemActs := by
  rw [tandemActs]
  have hread := Restores.locked (l := TtyLock.spinlock) (restores_accesses (G := [])
    (n := Function.update held .spinlock (held .spinlock + 1))
      (fun _ hl => absurd hl List.not_mem_nil)
    [TtyBuffer.rBuffer])
  split_ifs
  · exact neutral_locked _ _ _
  · exact hread.append (neutral_tyRdXoffActs _ _ _)
  · exact hread
  · exact hread.append (neutral_tyRdXoffActs _ _ _)
  · exact hread
  · exact neutral_nil _ _

theorem isSome_iSendDataToTty_iff : (t.iSendDataToTty c).isSome ↔
    ¬(t.Reaches c ∧ isSet t.options OPT_CRMOD ∧ isSet t.options OPT_LINE ∧ t.masked c = 0) := by
  rw [iSendDataToTty]
  dsimp only
  rw [← masked]
  split_ifs with hhook hflushing hintr hquit hflow hzero
  · exact iff_of_true rfl fun h => h.1.hook hhook
  · exact iff_of_true rfl fun h => absurd (h.1.flushing.symm.trans hflushing) Bool.false_ne_true
  · exact iff_of_true rfl fun h => h.1.intr hintr
  · exact iff_of_true rfl fun h => h.1.quit hquit
  · exact iff_of_true rfl fun h => h.1.flow hflow
  · exact iff_of_false Bool.false_ne_true
      (not_not_intro ⟨⟨hhook, Bool.eq_false_iff.2 hflushing, hintr, hquit, hflow⟩, hzero⟩)
  · exact iff_of_true rfl fun h => hzero h.2

/-- A character gets through if and only if no lock is released that is not held, which the mutex
    asserts. -/
theorem isSome_iff_allowed : (t.iSendDataToTty c).isSome ↔
    Allowed [] (fun _ => 0) (t.iSendDataToTtyActs c) := by
  rw [isSome_iSendDataToTty_iff]
  by_cases hreaches : t.Reaches c
  · obtain ⟨as, part, v, hacts, hpart, -⟩ := receiveActs_eq (t := t) (c := t.masked c)
    rw [hreaches.acts_eq, hacts]
    by_cases hzero : isSet t.options OPT_CRMOD ∧ isSet t.options OPT_LINE ∧ t.masked c = 0
    · refine iff_of_false (not_not_intro ⟨hreaches, hzero⟩) fun h => ?_
      rw [if_pos hzero, List.append_assoc, List.append_assoc] at h
      -- What follows the accesses unlocks what has been unlocked.
      have hunlocked := (Allowed.append (p := acquire .mutex :: acquire .spinlock :: leave)).1 h
      have hnone : after (fun _ => 0) (acquire .mutex :: acquire .spinlock :: leave) = fun _ => 0 :=
        (restores_both [] fun _ => 0).2
      rw [hnone] at hunlocked
      have hagain := (Allowed.append.1 hunlocked.2).2
      rw [(restores_accesses (G := []) (fun _ hl => absurd hl List.not_mem_nil) as).2] at hagain
      exact Nat.lt_irrefl 0 hagain.1
    · refine iff_of_true (fun h => hzero h.2) ?_
      rw [if_neg hzero, List.nil_append]
      have hcritical := restores_both as fun _ => 0
      have hrest := (hpart [] fun _ => 0).append (restores_tandemActs (t := v) _)
      rw [List.append_assoc]
      refine (Allowed.append (p := acquire .mutex :: acquire .spinlock ::
        (as.map access ++ leave))).2
        ⟨hcritical.1.mono (List.nil_subset _), ?_⟩
      rw [hcritical.2]
      exact hrest.1
  · refine iff_of_true (fun h => hreaches h.1) ?_
    exact (disciplined_iff.1 (disciplined_of_not_reaches hreaches)).1.mono (List.nil_subset _)

/-- The locks are released as often as they are acquired, and none of them is released without being
    held, nor a buffer accessed without those of the entry, unless a character reaches the last
    branch with a zero that is let through or a device that is to be stopped or restarted;
    `teminate` never does so. -/
theorem disciplined_acts_iff (t : Tty B) (call : LockingCall) : Disciplined (t.acts call) ↔
    t.InOrder call := by
  cases call with
  | iSendDataToTty c => exact disciplined_iSendDataToTtyActs_iff
  | iTransmitDataOfTty => exact iff_of_true disciplined_iTransmitDataOfTtyActs trivial
  | tyRdXoff x => exact iff_of_true (neutral_tyRdXoffActs x).disciplined trivial
  | tyWrtXoff x => exact iff_of_true (neutral_tyWrtXoffActs x).disciplined trivial
  | txStartup => exact iff_of_true neutral_txStartupActs.disciplined trivial
  | flushReadBuffer => exact iff_of_true disciplined_flushReadBufferActs trivial
  | flushWriteBuffer =>
    refine iff_of_true (Restores.disciplined (Restores.locked (p := [access .wBuffer]) ?_)) trivial
    exact restores_accesses (fun _ => held_of_mem_singleton) [TtyBuffer.wBuffer]
  | teminate =>
    refine iff_of_false (fun h => ?_) id
    exact absurd (h.held [acquire .mutex] .spinlock _ rfl) (by decide)

/-- A terminal just initialised, with these options. -/
def opened (options : BitVec 32) : Tty (SRingBuffer UInt8) :=
  ((blank ⟨0, 0, 64, fun _ => 0⟩).init 64 ⟨0, 0, 64, fun _ => 0⟩ ⟨0, 0, 64,
    fun _ => 0⟩).fioSetOptions options

/-- A zero with `OPT_CRMOD` and `OPT_LINE` unlocks both locks twice, a character with `OPT_TANDEM`
    has the free space read with the spinlock alone, and `teminate` unlocks what it has not
    locked. -/
theorem not_disciplined_acts :
    (opened 0x42).acts (.iSendDataToTty 0) = [acquire .mutex, acquire .spinlock, release .spinlock,
      release .mutex, access .rBuffer, release .spinlock, release .mutex] ∧
    ¬Disciplined ((opened 0x42).acts (.iSendDataToTty 0)) ∧
    ¬Disciplined ((opened 0x04).acts (.iSendDataToTty 0x61)) ∧
    ¬Disciplined ((opened 0).acts .teminate) := by
  refine ⟨by decide, fun h => ?_, fun h => ?_, fun h => ?_⟩
  · exact absurd (h.held [acquire .mutex, acquire .spinlock, release .spinlock, release .mutex,
      access .rBuffer]
      .spinlock _ rfl) (by decide)
  · exact absurd (h.guarded [acquire .mutex, acquire .spinlock, access .rBuffer, access .rBuffer,
      release .spinlock, release .mutex, acquire .spinlock] .rBuffer _ rfl .mutex (.head _))
        (by decide)
  · exact absurd (h.held [acquire .mutex] .spinlock _ rfl) (by decide)

end Tty

end DemoOs
