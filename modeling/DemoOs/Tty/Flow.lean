import DemoOs.Tty.Tty
import DemoOs.Lib.Run

/-!
# Flow control

Characters received stop and restart the output of a terminal (`_wState._xoff`), and the level of
its buffer stops and restarts the device (`_rState._xoff`), both with `OPT_TANDEM` only. When the
option is cleared, both are meant to be released, but `FIOSETOPTIONS` tests that the option is set
before and after.

`FlowFree` says that nothing is stopped without the option. It is kept by everything but the
clearing of the option while the output is stopped, or the device is and the read buffer is not
flushed on the occasion (`Keeps`, `flowFree_run`). Where it is not kept, no received character
restarts the output (`xoff_stays`).
-/

namespace DemoOs

/-- What happens to a terminal. -/
inductive TtyEvent
  | receive (inChar : UInt8)
  | transmit
  | readIn (buffer : List UInt8)
  | enterWriteOut
  | writeOut (maxByteSize : ℕ)
  | flushReadBuffer
  | flushWriteBuffer
  | setOptions (arg : BitVec 32)

namespace Tty

open OptionFlags CtrlCharIndex CharBuffer

variable {B : Type} {t t' : Tty B}

def step [CharBuffer B] (t : Tty B) : TtyEvent → Option (Tty B)
  | .receive inChar => (t.iSendDataToTty inChar).map Prod.snd
  | .transmit => some t.iTransmitDataOfTty.2.2
  | .readIn buffer => (t.readIn buffer).map Prod.snd
  | .enterWriteOut => t.enterWriteOut
  | .writeOut maxByteSize => (t.writeOut maxByteSize).map Prod.snd
  | .flushReadBuffer => some t.flushReadBuffer
  | .flushWriteBuffer => some t.flushWriteBuffer
  | .setOptions arg => some (t.fioSetOptions arg)

/-- Nothing is stopped without `OPT_TANDEM`. -/
def FlowFree (t : Tty B) : Prop :=
  isSet t.options OPT_TANDEM = false → t.wState.xoff = false ∧ t.rState.xoff = false

/-- `OPT_TANDEM` is not cleared while the output is stopped, nor while the device is, unless the
    read buffer is flushed. -/
def Keeps (t : Tty B) : TtyEvent → Prop
  | .setOptions arg => isSet t.options OPT_TANDEM = true → isSet arg OPT_TANDEM = false →
      t.wState.xoff = false ∧
        (t.rState.xoff = false ∨ isSet t.options OPT_LINE ≠ isSet arg OPT_LINE)
  | _ => True

/-! ## What the functions do to the flags -/

/-- The options and the output are as before, and the device is not stopped if it was not. -/
structure Quiet (t t' : Tty B) : Prop where
  options : t'.options = t.options
  wXoff : t'.wState.xoff = t.wState.xoff
  rXoff : t'.rState.xoff = true → t.rState.xoff = true

theorem Quiet.refl (t : Tty B) : Quiet t t := ⟨rfl, rfl, id⟩

theorem Quiet.trans {t'' : Tty B} (h : Quiet t t') (h' : Quiet t' t'') : Quiet t t'' where
  options := h'.options.trans h.options
  wXoff := h'.wXoff.trans h.wXoff
  rXoff := h.rXoff ∘ h'.rXoff

theorem Quiet.flowFree (h : Quiet t t') (ht : t.FlowFree) : t'.FlowFree := by
  intro hoff
  rw [h.options] at hoff
  obtain ⟨hw, hr⟩ := ht hoff
  refine ⟨h.wXoff.trans hw, Bool.eq_false_iff.2 fun hr' => ?_⟩
  rw [h.rXoff hr'] at hr
  cases hr

theorem quiet_txStartup : Quiet t t.txStartup := by
  unfold txStartup
  split_ifs <;> exact ⟨rfl, rfl, id⟩

/-- `tyRdXoff` sets its flag, and no other. -/
theorem tyRdXoff_spec (x : Bool) : (t.tyRdXoff x).options = t.options ∧
    (t.tyRdXoff x).wState.xoff = t.wState.xoff ∧ (t.tyRdXoff x).rState.xoff = x := by
  unfold tyRdXoff
  split_ifs with h
  · dsimp only
    split_ifs <;> exact ⟨rfl, rfl, rfl⟩
  · exact ⟨rfl, rfl, not_not.1 h⟩

/-- `tyWrtXoff` sets its flag, and no other. -/
theorem tyWrtXoff_spec (x : Bool) : (t.tyWrtXoff x).options = t.options ∧
    (t.tyWrtXoff x).wState.xoff = x ∧ (t.tyWrtXoff x).rState.xoff = t.rState.xoff := by
  unfold tyWrtXoff
  split_ifs with h
  · dsimp only
    split_ifs <;> exact ⟨rfl, rfl, rfl⟩
  · exact ⟨rfl, not_not.1 h, rfl⟩

theorem quiet_tyRdXoff_false : Quiet t (t.tyRdXoff false) := by
  obtain ⟨ho, hw, hr⟩ := tyRdXoff_spec (t := t) false
  exact ⟨ho, hw, fun h => by rw [hr] at h; cases h⟩

variable [CharBuffer B]

theorem flushReadBuffer_spec : t.flushReadBuffer.options = t.options ∧
    t.flushReadBuffer.wState.xoff = t.wState.xoff ∧ t.flushReadBuffer.rState.xoff = false :=
  tyRdXoff_spec false

theorem quiet_flushReadBuffer : Quiet t t.flushReadBuffer := by
  obtain ⟨ho, hw, hr⟩ := flushReadBuffer_spec (t := t)
  exact ⟨ho, hw, fun h => by rw [hr] at h; cases h⟩

theorem quiet_flushWriteBuffer : Quiet t t.flushWriteBuffer := ⟨rfl, rfl, id⟩

theorem quiet_readIn {buffer : List UInt8} {n : ℤ} (h : t.readIn buffer = some (n, t')) :
    Quiet t t' := by
  simp only [readIn] at h
  split_ifs at h
  all_goals
    obtain ⟨-, rfl⟩ := Prod.ext_iff.1 (Option.some.inj h)
    exact ⟨rfl, rfl, id⟩

omit [CharBuffer B] in
theorem quiet_enterWriteOut (h : t.enterWriteOut = some t') : Quiet t t' := by
  unfold enterWriteOut at h
  split_ifs at h
  exact Option.some.inj h ▸ ⟨rfl, rfl, id⟩

theorem quiet_takeBytes {maxByteSize : ℕ} {bytes : List UInt8}
    (h : t.takeBytes maxByteSize = some (bytes, t')) : Quiet t t' := by
  unfold takeBytes at h
  split_ifs at h
  all_goals
    obtain ⟨_, -, heq⟩ := Option.map_eq_some_iff.1 h
    obtain ⟨-, rfl⟩ := Prod.ext_iff.1 heq
    exact ⟨rfl, rfl, id⟩

theorem quiet_afterTaken : Quiet t t.afterTaken := by
  have hrelease : ∀ u : Tty B,
      Quiet u (if !isEmpty u.rBuffer then { u with rSem := u.rSem + 1 } else u) := by
    intro u
    split_ifs <;> exact ⟨rfl, rfl, id⟩
  refine Quiet.trans ?_ (hrelease _)
  dsimp only
  split_ifs <;> first | exact .refl t | exact quiet_tyRdXoff_false

theorem quiet_writeOut {maxByteSize : ℕ} {bytes : List UInt8}
    (h : t.writeOut maxByteSize = some (bytes, t')) : Quiet t t' := by
  unfold writeOut at h
  split_ifs at h
  · obtain ⟨-, rfl⟩ := Prod.ext_iff.1 (Option.some.inj h)
    exact ⟨rfl, rfl, id⟩
  · obtain ⟨⟨_, u⟩, htake, heq⟩ := Option.map_eq_some_iff.1 h
    obtain ⟨-, rfl⟩ := Prod.ext_iff.1 heq
    have hread : Quiet t { t with readers := t.readers - 1 } := ⟨rfl, rfl, id⟩
    exact hread.trans ((quiet_takeBytes htake).trans quiet_afterTaken)

/-- A character received raw changes the buffer only. -/
theorem quiet_receiveRaw {c : UInt8} : Quiet t (t.receiveRaw c).2.2.2 := ⟨rfl, rfl, id⟩

theorem quiet_insert {c : UInt8} : Quiet t (t.insert c).2 := by
  unfold insert
  dsimp only
  split_ifs <;> exact ⟨rfl, rfl, id⟩

theorem quiet_edit {c : UInt8} : Quiet t (t.edit c).2.2.2 := by
  unfold edit
  dsimp only
  split_ifs <;> first | exact ⟨rfl, rfl, id⟩ | exact quiet_insert

theorem quiet_receiveLine {c : UInt8} : Quiet t (t.receiveLine c).2.2.2 := by
  refine Quiet.trans (quiet_edit (c := c)) ?_
  simp only [receiveLine]
  split_ifs <;> exact ⟨rfl, rfl, id⟩

theorem quiet_echoBack (ret : ErrNo) (c : UInt8) (erased : Bool) :
    Quiet t (t.echoBack ret c erased).2 := by
  unfold echoBack
  split_ifs
  · have hbuffer : Quiet t (t.echoed (t.echo c erased)) := ⟨rfl, rfl, id⟩
    exact hbuffer.trans quiet_txStartup
  · exact .refl t

/-- Behind the critical section, the flag of the device may be set, with the option only. -/
theorem tandem_spec (ret : ErrNo) (releaseTask : Bool) :
    (t.tandem ret releaseTask).2.2.options = t.options ∧
      (t.tandem ret releaseTask).2.2.wState.xoff = t.wState.xoff ∧
      (isSet t.options OPT_TANDEM = false → (t.tandem ret releaseTask).2.2 = t) := by
  unfold tandem
  by_cases ht : (isSet t.options OPT_TANDEM && !isSet t.options OPT_LINE) = true
  · rw [if_pos ht]
    have hset : isSet t.options OPT_TANDEM = true := (Bool.and_eq_true_iff.1 ht).1
    have hnot : ¬ isSet t.options OPT_TANDEM = false := Bool.not_eq_false _ ▸ hset
    dsimp only
    split_ifs
    all_goals
      first
        | exact ⟨rfl, rfl, fun hoff => absurd hoff hnot⟩
        | exact ⟨(tyRdXoff_spec _).1, (tyRdXoff_spec _).2.1, fun hoff => absurd hoff hnot⟩
  · rw [if_neg ht]
    exact ⟨rfl, rfl, fun _ => rfl⟩

theorem finish_spec (ret : ErrNo) (releaseTask erased : Bool) (c : UInt8) :
    (t.finish ret releaseTask erased c).2.options = t.options ∧
      (t.finish ret releaseTask erased c).2.wState.xoff = t.wState.xoff ∧
      (isSet t.options OPT_TANDEM = false → Quiet t (t.finish ret releaseTask erased c).2) := by
  have hecho : Quiet t (t.echoBack ret c erased).2 := quiet_echoBack ret c erased
  obtain ⟨ho, hx, hsame⟩ :=
    tandem_spec (t := (t.echoBack ret c erased).2) (t.echoBack ret c erased).1 releaseTask
  have hlast : ∀ (w : Tty B) (b : Bool),
      Quiet w (if b then { w with rSem := w.rSem + 1 } else w) := by
    intro w b
    split_ifs <;> exact ⟨rfl, rfl, id⟩
  refine ⟨(hlast _ _).options.trans (ho.trans hecho.options),
    (hlast _ _).wXoff.trans (hx.trans hecho.wXoff), fun hoff => ?_⟩
  have hnone := hsame (by rw [hecho.options, hoff])
  exact (hnone.symm ▸ hecho : Quiet t (tandem (t.echoBack ret c erased).2 _ _).2.2).trans
    (hlast _ _)

/-- A character for the reader does nothing to the output, and nothing to the device without
    `OPT_TANDEM`. -/
theorem receive_spec (c : UInt8) : (t.receive c).2.options = t.options ∧
    (t.receive c).2.wState.xoff = t.wState.xoff ∧
    (isSet t.options OPT_TANDEM = false → Quiet t (t.receive c).2) := by
  have hreceived : ∀ c, Quiet t
      (if isSet t.options OPT_LINE then t.receiveLine c else t.receiveRaw c).2.2.2 := by
    intro c
    split_ifs
    · exact quiet_receiveLine
    · exact quiet_receiveRaw
  have hu := hreceived (if isSet t.options OPT_CRMOD && c == CR then LF else c)
  obtain ⟨ho, hx, hquiet⟩ := finish_spec (B := B) _ _ _ _
  exact ⟨ho.trans hu.options, hx.trans hu.wXoff, fun hoff =>
    hu.trans (hquiet ((congrArg (isSet · OPT_TANDEM) hu.options).trans hoff))⟩

/-- A character received does nothing to either side without `OPT_TANDEM`. -/
theorem iSendDataToTty_spec {c : UInt8} {ret : ErrNo} (h : t.iSendDataToTty c = some (ret, t')) :
    t'.options = t.options ∧ (isSet t.options OPT_TANDEM = false → Quiet t t') := by
  unfold iSendDataToTty at h
  dsimp only at h
  revert h
  generalize (if isSet t.options OPT_7_BIT then c &&& 0x7f else c) = c
  intro h
  have hsame : ∀ {e : ErrNo}, some (e, t) = some (ret, t') →
      t'.options = t.options ∧ (isSet t.options OPT_TANDEM = false → Quiet t t') := by
    intro e he
    obtain ⟨-, rfl⟩ := Prod.ext_iff.1 (Option.some.inj he)
    exact ⟨rfl, fun _ => .refl t⟩
  split_ifs at h with _ _ _ _ hxon
  · exact hsame h
  · exact hsame h
  · exact hsame h
  · exact hsame h
  · -- The characters that stop and restart the output are such with the option only.
    obtain ⟨-, rfl⟩ := Prod.ext_iff.1 (Option.some.inj h)
    exact ⟨(tyWrtXoff_spec _).1, fun hoff => absurd hxon.2 (by rw [hoff]; decide)⟩
  · obtain ⟨ho, -, hquiet⟩ := receive_spec (t := t) c
    rw [Option.some.inj h] at ho hquiet
    exact ⟨ho, hquiet⟩

theorem quiet_transmitted (c : UInt8) : Quiet t (t.transmitted c).2.2 := by
  unfold transmitted
  split_ifs <;> exact ⟨rfl, rfl, id⟩

theorem quiet_transmit : Quiet t t.iTransmitDataOfTty.2.2 := by
  have of_fields : ∀ {u : Tty B} {c : UInt8}, Quiet t u → Quiet t (u.transmitted c).2.2 :=
    fun h => h.trans (quiet_transmitted _)
  unfold iTransmitDataOfTty
  by_cases hpending : t.rState.pending = true
  · rw [if_pos hpending]
    exact ⟨rfl, rfl, id⟩
  rw [if_neg hpending]
  by_cases hstopped : (t.wState.xoff || t.wState.flushingWBuffer) = true
  · rw [if_pos hstopped]
    exact ⟨rfl, rfl, id⟩
  rw [if_neg hstopped]
  by_cases hcr : t.wState.cr = true
  · rw [if_pos hcr]
    exact of_fields ⟨rfl, rfl, id⟩
  rw [if_neg hcr]
  rcases read t.wBuffer with ⟨_ | c, wBuffer⟩
  · exact ⟨rfl, rfl, id⟩
  · dsimp only
    split_ifs <;> exact of_fields ⟨rfl, rfl, id⟩

/-! ## Events -/

/-- With the option before and after, `FIOSETOPTIONS` releases both sides, and otherwise it only
    flushes the read buffer. -/
theorem fioSetOptions_spec (arg : BitVec 32) : (t.fioSetOptions arg).options = arg ∧
    (¬ (isSet t.options OPT_TANDEM = true ∧ isSet arg OPT_TANDEM = true) →
      (t.fioSetOptions arg).wState.xoff = t.wState.xoff ∧
      (t.fioSetOptions arg).rState.xoff =
        if isSet t.options OPT_LINE ≠ isSet arg OPT_LINE then false else t.rState.xoff) := by
  obtain ⟨u, hu, ho, hw, hr⟩ : ∃ u : Tty B, t.fioSetOptions arg =
      (if isSet t.options OPT_TANDEM && isSet u.options OPT_TANDEM then
        (u.tyRdXoff false).tyWrtXoff false else u) ∧
      u.options = arg ∧ u.wState.xoff = t.wState.xoff ∧ u.rState.xoff =
        if isSet t.options OPT_LINE ≠ isSet arg OPT_LINE then false else t.rState.xoff := by
    refine ⟨_, rfl, ?_⟩
    dsimp only
    split_ifs
    · exact flushReadBuffer_spec
    · exact ⟨rfl, rfl, rfl⟩
  rw [hu, ho]
  by_cases htandem : (isSet t.options OPT_TANDEM && isSet arg OPT_TANDEM) = true
  · rw [if_pos htandem, (tyWrtXoff_spec _).1, (tyRdXoff_spec _).1]
    exact ⟨ho, fun hnot => absurd (Bool.and_eq_true_iff.1 htandem) hnot⟩
  · rw [if_neg htandem]
    exact ⟨ho, fun _ => ⟨hw, hr⟩⟩

/-- What an event does, if it is not the setting of options. -/
theorem step_spec {e : TtyEvent} (he : ∀ arg, e ≠ .setOptions arg) (h : t.step e = some t') :
    t'.options = t.options ∧ (isSet t.options OPT_TANDEM = false → Quiet t t') := by
  have of_quiet : Quiet t t' →
      t'.options = t.options ∧ (isSet t.options OPT_TANDEM = false → Quiet t t') :=
    fun h => ⟨h.options, fun _ => h⟩
  cases e with
  | receive c =>
    obtain ⟨⟨ret, u⟩, hsend, rfl⟩ := Option.map_eq_some_iff.1 h
    exact iSendDataToTty_spec hsend
  | transmit => exact of_quiet (Option.some.inj h ▸ quiet_transmit)
  | readIn buffer =>
    obtain ⟨⟨n, u⟩, hread, rfl⟩ := Option.map_eq_some_iff.1 h
    exact of_quiet (quiet_readIn hread)
  | enterWriteOut => exact of_quiet (quiet_enterWriteOut h)
  | writeOut maxByteSize =>
    obtain ⟨⟨bytes, u⟩, hwrite, rfl⟩ := Option.map_eq_some_iff.1 h
    exact of_quiet (quiet_writeOut hwrite)
  | flushReadBuffer => exact of_quiet (Option.some.inj h ▸ quiet_flushReadBuffer)
  | flushWriteBuffer => exact of_quiet (Option.some.inj h ▸ quiet_flushWriteBuffer)
  | setOptions arg => exact absurd rfl (he arg)

/-- Whether the setting of options leaves something stopped is up to what is stopped before. -/
theorem fioSetOptions_iff (ht : t.FlowFree) (arg : BitVec 32) :
    (t.fioSetOptions arg).FlowFree ↔ t.Keeps (.setOptions arg) := by
  obtain ⟨ho, hflags⟩ := fioSetOptions_spec (t := t) arg
  constructor
  · intro hfree hold hnew
    obtain ⟨hw, hr⟩ := hfree (by rw [ho, hnew])
    obtain ⟨hw', hr'⟩ := hflags (by rw [hnew]; simp)
    refine ⟨hw' ▸ hw, ?_⟩
    by_cases hline : isSet t.options OPT_LINE ≠ isSet arg OPT_LINE
    · exact .inr hline
    · rw [hr', if_neg hline] at hr
      exact .inl hr
  · intro hkeeps hnew
    rw [ho] at hnew
    obtain ⟨hw', hr'⟩ := hflags (by rw [hnew]; simp)
    rw [hw', hr']
    by_cases hold : isSet t.options OPT_TANDEM = true
    · obtain ⟨hw, hr⟩ := hkeeps hold hnew
      refine ⟨hw, ?_⟩
      split_ifs with hline
      · rfl
      · exact hr.resolve_right hline
    · obtain ⟨hw, hr⟩ := ht (Bool.not_eq_true _ ▸ hold)
      rw [hw, hr, ite_self]
      exact ⟨rfl, rfl⟩

/-- An event leaves nothing stopped without `OPT_TANDEM` if and only if it keeps it so. -/
theorem step_iff {e : TtyEvent} (ht : t.FlowFree) :
    (∀ t', t.step e = some t' → t'.FlowFree) ↔ t.Keeps e := by
  by_cases he : ∃ arg, e = .setOptions arg
  · obtain ⟨arg, rfl⟩ := he
    rw [← fioSetOptions_iff ht]
    exact ⟨fun h => h _ rfl, fun h t' hstep => Option.some.inj hstep ▸ h⟩
  · have hkeeps : t.Keeps e := by
      cases e with
      | setOptions arg => exact absurd ⟨arg, rfl⟩ he
      | _ => trivial
    refine ⟨fun _ => hkeeps, fun _ t' hstep hoff => ?_⟩
    obtain ⟨ho, hquiet⟩ := step_spec (fun arg harg => he ⟨arg, harg⟩) hstep
    rw [ho] at hoff
    exact (hquiet hoff).flowFree ht (by rw [ho, hoff])

theorem flowFree_init {n : ℕ} {rBuffer wBuffer : B} : (t.init n rBuffer wBuffer).FlowFree :=
  fun _ => ⟨rfl, rfl⟩

/-- From `init` on, nothing is stopped without `OPT_TANDEM` as long as every event keeps it so, and
    for no other sequence of events. -/
theorem flowFree_iff {n : ℕ} {rBuffer wBuffer : B} :
    (∀ t', Run step Keeps (t.init n rBuffer wBuffer) t' → t'.FlowFree) ∧
      ∀ es, Admissible step (fun t e => ∀ t', t.step e = some t' → t'.FlowFree)
        (t.init n rBuffer wBuffer) es ↔ Admissible step Keeps (t.init n rBuffer wBuffer) es := by
  constructor
  · intro t' hrun
    exact hrun.invariant (fun ht hkeeps hstep => (step_iff ht).2 hkeeps _ hstep) flowFree_init
  · intro es
    exact Admissible.iff (I := FlowFree) (G := fun _ _ => True) (fun ht _ => step_iff ht)
      (fun ht _ hkeeps hstep => (step_iff ht).2 hkeeps _ hstep) flowFree_init
      (.of_forall (fun _ _ => trivial) es)

/-- Options set and cleared again, once the output is restarted. -/
theorem flowFree_iff_restarted : ∃ t' : Tty (SRingBuffer UInt8),
    t'.options = 0 ∧ t'.wState.busy = true ∧ t'.FlowFree := by
  obtain ⟨t', hrun, hoptions⟩ : ∃ t' : Tty (SRingBuffer UInt8),
      Run step Keeps ((blank ⟨0, 0, 64, fun _ => 0⟩).init 64 ⟨0, 0, 64, fun _ => 0⟩
        ⟨0, 0, 64, fun _ => 0⟩) t' ∧ t'.options = 0 ∧ t'.wState.busy = true :=
    ⟨_, .tail (i := .setOptions 0) (.tail (i := .receive XON) (.tail (i := .receive XOFF)
      (.tail (i := .setOptions 4) .refl (fun h => absurd h (by decide)) rfl) trivial rfl)
        trivial rfl)
      (fun _ _ => ⟨rfl, .inl rfl⟩) rfl, rfl, rfl⟩
  exact ⟨t', hoptions.1, hoptions.2, flowFree_iff.1 t' hrun⟩

/-- Output stopped without `OPT_TANDEM` stays stopped, until options are set. -/
theorem xoff_stays (hoff : isSet t.options OPT_TANDEM = false) (hx : t.wState.xoff = true)
    (hrun : Run step (fun _ e => ∀ arg, e ≠ .setOptions arg) t t') :
    isSet t'.options OPT_TANDEM = false ∧ t'.wState.xoff = true := by
  refine hrun.invariant (I := fun t => isSet t.options OPT_TANDEM = false ∧ t.wState.xoff = true)
    (fun hs he hstep => ?_) ⟨hoff, hx⟩
  obtain ⟨ho, hquiet⟩ := step_spec he hstep
  rw [ho, (hquiet hs.1).wXoff]
  exact hs

/-- The output is stopped, and the option cleared. -/
theorem stopped_off : ∃ t' : Tty (SRingBuffer UInt8),
    Run step (fun _ _ => True) ((blank ⟨0, 0, 64, fun _ => 0⟩).init 64 ⟨0, 0, 64, fun _ => 0⟩
      ⟨0, 0, 64, fun _ => 0⟩) t' ∧
    isSet t'.options OPT_TANDEM = false ∧ t'.wState.xoff = true ∧ ¬ t'.FlowFree :=
  ⟨_, .tail (i := .setOptions 0) (.tail (i := .receive XOFF)
    (.tail (i := .setOptions 4) .refl trivial rfl) trivial rfl) trivial rfl, by decide, rfl,
    fun h => absurd (h (by decide)).1 (by decide)⟩

end Tty

end DemoOs
