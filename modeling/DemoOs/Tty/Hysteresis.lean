import DemoOs.Tty.Echo
import DemoOs.Tty.Resize

/-!
# Hysteresis

With `OPT_TANDEM`, the device is stopped when the read buffer gets nearly full, and restarted when
it has emptied again; the two thresholds are percentages of its size. Both the reader and who
receives characters may find that the device is to be restarted. The reader compares with
`_xonThreshold`. Who receives compares with `_xoffThreshold`, and restarts the device too early.

The thresholds are those of the size, unless a resize fails: the capacity is the size asked for
then, and a second resize to the same size does nothing (`hysteretic_iff`).
-/

namespace DemoOs

/-- A terminal, with the size its thresholds have been computed from. -/
structure Sized where
  tty : Tty BlockBuffer
  size : ℕ

inductive SizedEvent
  | tty (e : TtyEvent)
  /-- `FIORBUFSET`, with the assertion on the size. -/
  | resize (arg : ℤ) (block : HeapBlock)

/-- A flush, or a change of the options. -/
def SizedEvent.releases : SizedEvent → Bool
  | .tty .flushReadBuffer | .tty (.setOptions _) => true
  | _ => false

namespace Tty

open OptionFlags CharBuffer

variable {B : Type} [CharBuffer B] {t t' : Tty B} {c : UInt8}

/-! ## What is told to the device -/

/-- The device is as before, and the thresholds. -/
structure SameFlow (t t' : Tty B) : Prop where
  xoff : t'.rState.xoff = t.rState.xoff
  xoffThreshold : t'.xoffThreshold = t.xoffThreshold
  xonThreshold : t'.xonThreshold = t.xonThreshold

/-- The buffer of the readers is, too. -/
structure SameInput (t t' : Tty B) : Prop extends SameFlow t t' where
  rBuffer : t'.rBuffer = t.rBuffer

omit [CharBuffer B] in
theorem SameFlow.refl (t : Tty B) : SameFlow t t := ⟨rfl, rfl, rfl⟩

omit [CharBuffer B] in
/-- The other side is told, and the thresholds stay. -/
theorem tyRdXoff_flow (x : Bool) : (t.tyRdXoff x).rState.xoff = x ∧
    (t.tyRdXoff x).xoffThreshold = t.xoffThreshold ∧
    (t.tyRdXoff x).xonThreshold = t.xonThreshold := by
  refine ⟨(tyRdXoff_spec x).2.2, ?_⟩
  rw [tyRdXoff]
  dsimp only
  split_ifs <;> exact ⟨rfl, rfl⟩

omit [CharBuffer B] in
/-- The input is left alone when the transmitter is held. -/
theorem sameInput_tyWrtXoff (x : Bool) : SameInput t (t.tyWrtXoff x) := by
  rw [tyWrtXoff]
  dsimp only
  split_ifs <;> exact ⟨⟨rfl, rfl, rfl⟩, rfl⟩

/-- The echo leaves the flow of the input alone. -/
theorem echoBack_flow (ret : ErrNo) (erased : Bool) : SameFlow t (t.echoBack ret c erased).2 ∧
    (t.echoBack ret c erased).2.options = t.options ∧
      (t.echoBack ret c erased).2.rState.flushingRBuffer = t.rState.flushingRBuffer := by
  rw [echoBack]
  split_ifs
  · rw [txStartup]
    split_ifs <;> exact ⟨⟨rfl, rfl, rfl⟩, rfl, rfl⟩
  · exact ⟨.refl t, rfl, rfl⟩

/-- Who receives a character compares with the one threshold in both cases. -/
def tells (t : Tty B) (freeBytes : ℤ) : Bool :=
  if isSet t.options OPT_TANDEM && !isSet t.options OPT_LINE then
    if t.rState.xoff then freeBytes ≤ t.xoffThreshold else freeBytes < t.xoffThreshold
  else t.rState.xoff

/-- The tandem mode tells the other side by the room there is. -/
theorem tandem_flow (ret : ErrNo) (releaseTask : Bool)
    (hflushing : t.rState.flushingRBuffer = false) :
    (t.tandem ret releaseTask).2.2.rState.xoff = t.tells (freeSpace t.rBuffer) ∧
      (t.tandem ret releaseTask).2.2.xoffThreshold = t.xoffThreshold ∧
      (t.tandem ret releaseTask).2.2.xonThreshold = t.xonThreshold := by
  unfold tandem tells
  rw [hflushing]
  dsimp only
  by_cases htandem : (isSet t.options OPT_TANDEM && !isSet t.options OPT_LINE) = true
  · rw [if_pos htandem, if_pos htandem, if_neg Bool.false_ne_true]
    cases hxoff : t.rState.xoff with
    | true =>
      rw [if_neg (by decide), if_pos rfl]
      split_ifs with hhigh
      · obtain ⟨hx, hthresholds⟩ := tyRdXoff_flow (t := t) false
        exact ⟨hx.trans (decide_eq_false (Int.not_le.2 hhigh)).symm, hthresholds⟩
      · exact ⟨hxoff.trans (decide_eq_true (Int.not_lt.1 hhigh)).symm, rfl, rfl⟩
    | false =>
      rw [if_pos (by decide), if_neg Bool.false_ne_true]
      split_ifs with hlow
      · obtain ⟨hx, hthresholds⟩ := tyRdXoff_flow (t := t) true
        exact ⟨hx.trans (decide_eq_true hlow).symm, hthresholds⟩
      · exact ⟨hxoff.trans (decide_eq_false hlow).symm, rfl, rfl⟩
  · rw [if_neg htandem, if_neg htandem]
    exact ⟨rfl, rfl, rfl⟩

omit [CharBuffer B] in
/-- What is told depends on thresholds and options. -/
theorem SameFlow.tells {freeBytes : ℤ} (h : SameFlow t t') (ho : t'.options = t.options) :
    t'.tells freeBytes = t.tells freeBytes := by
  rw [Tty.tells, Tty.tells, h.xoff, h.xoffThreshold, ho]

/-- What a character received makes of the device. -/
theorem received_flow {ret : ErrNo} (h : t.iSendDataToTty c = some (ret, t')) :
    t'.xoffThreshold = t.xoffThreshold ∧ t'.xonThreshold = t.xonThreshold ∧
      t'.rState.xoff = if t.ForReader c then t.tells (freeSpace t'.rBuffer) else t.rState.xoff := by
  by_cases hreader : t.ForReader c
  · rw [if_pos hreader]
    rw [hreader.iSendDataToTty] at h
    -- Neither storing nor echoing it tells the device anything.
    have hstore := store_frame (t := t) (c := t.typed c)
    obtain ⟨hecho, hoptions, hflushing⟩ :=
      echoBack_flow (t := (t.store (t.typed c)).2.2.2) (c := t.typed c)
      (t.store (t.typed c)).1 (t.store (t.typed c)).2.2.1
    have hflow :
        SameFlow t (((t.store (t.typed c)).2.2.2).echoBack (t.store (t.typed c)).1 (t.typed c)
        (t.store (t.typed c)).2.2.1).2 :=
      ⟨hecho.xoff.trans (congrArg RState.xoff hstore.rState),
        hecho.xoffThreshold.trans hstore.xoffThreshold,
        hecho.xonThreshold.trans hstore.xonThreshold⟩
    rw [hstore.rState, hreader.flushing] at hflushing
    rw [hstore.options] at hoptions
    unfold finish at h
    dsimp only at h
    generalize ((t.store (t.typed c)).2.2.2).echoBack (t.store (t.typed c)).1 (t.typed c)
      (t.store (t.typed c)).2.2.1 = x at h hflow hflushing hoptions
    obtain ⟨hx, hxoff, hxon⟩ := tandem_flow x.1 (t.store (t.typed c)).2.1 hflushing
    have hbuffer := (tandem_buffers (t := x.2) x.1 (t.store (t.typed c)).2.1).2
    rw [hflow.tells hoptions] at hx
    obtain ⟨-, rfl⟩ := Prod.mk.inj (Option.some.inj h)
    split_ifs
    · exact ⟨hxoff.trans hflow.xoffThreshold, hxon.trans hflow.xonThreshold,
        hx.trans (by rw [← hbuffer])⟩
    · exact ⟨hxoff.trans hflow.xoffThreshold, hxon.trans hflow.xonThreshold,
        hx.trans (by rw [← hbuffer])⟩
  · rw [if_neg hreader]
    obtain rfl | ⟨x, rfl⟩ := iSendDataToTty_of_not_forReader hreader h
    · exact ⟨rfl, rfl, rfl⟩
    · have hflow := sameInput_tyWrtXoff (t := t) x
      exact ⟨hflow.xoffThreshold, hflow.xonThreshold, hflow.xoff⟩

/-- The transmitter leaves the input alone. -/
theorem sameInput_transmit : SameInput t t.iTransmitDataOfTty.2.2 := by
  have htransmitted : ∀ {w : Tty B} {c : UInt8}, SameInput t w →
      SameInput t (w.transmitted c).2.2 := by
    intro w c h
    rw [transmitted]
    split_ifs <;> exact ⟨⟨h.xoff, h.xoffThreshold, h.xonThreshold⟩, h.rBuffer⟩
  unfold iTransmitDataOfTty
  by_cases hpending : t.rState.pending = true
  · rw [if_pos hpending]
    exact ⟨⟨rfl, rfl, rfl⟩, rfl⟩
  rw [if_neg hpending]
  by_cases hstopped : (t.wState.xoff || t.wState.flushingWBuffer) = true
  · rw [if_pos hstopped]
    exact ⟨⟨rfl, rfl, rfl⟩, rfl⟩
  rw [if_neg hstopped]
  by_cases hcr : t.wState.cr = true
  · rw [if_pos hcr]
    exact htransmitted ⟨⟨rfl, rfl, rfl⟩, rfl⟩
  rw [if_neg hcr]
  rcases read t.wBuffer with ⟨_ | c, wBuffer⟩
  · exact ⟨⟨rfl, rfl, rfl⟩, rfl⟩
  · dsimp only
    split_ifs <;> exact htransmitted ⟨⟨rfl, rfl, rfl⟩, rfl⟩

/-- So does what is read in to be written. -/
theorem sameInput_readIn {buffer : List UInt8} {n : ℤ} (h : t.readIn buffer = some (n, t')) :
    SameInput t t' := by
  simp only [readIn] at h
  split_ifs at h
  all_goals
    obtain ⟨-, rfl⟩ := Prod.mk.inj (Option.some.inj h)
    exact ⟨⟨rfl, rfl, rfl⟩, rfl⟩

omit [CharBuffer B] in
/-- So does entering `writeOut`. -/
theorem sameInput_enterWriteOut (h : t.enterWriteOut = some t') : SameInput t t' := by
  unfold enterWriteOut at h
  split_ifs at h
  obtain rfl := Option.some.inj h
  exact ⟨⟨rfl, rfl, rfl⟩, rfl⟩

/-- Taking bytes leaves the flow alone, and removes them from the buffer. -/
theorem takeBytes_flow {maxByteSize : ℕ} {bytes : List UInt8}
    (h : t.takeBytes maxByteSize = some (bytes, t')) :
    SameFlow t t' ∧ ∃ n, readn t.rBuffer n = some (bytes, t'.rBuffer) := by
  unfold takeBytes at h
  split_ifs at h
  all_goals
    obtain ⟨⟨_, _⟩, hread, heq⟩ := Option.map_eq_some_iff.1 h
    obtain ⟨rfl, rfl⟩ := Prod.mk.inj heq
    exact ⟨⟨rfl, rfl, rfl⟩, _, hread⟩

/-- The reader restarts the device above the other threshold only. -/
structure Restarts (t t' : Tty B) : Prop where
  xoffThreshold : t'.xoffThreshold = t.xoffThreshold
  xonThreshold : t'.xonThreshold = t.xonThreshold
  rBuffer : t'.rBuffer = t.rBuffer
  xoff : t'.rState.xoff = t.rState.xoff ∨ t'.rState.xoff = false ∧
    freeSpace t.rBuffer > t.xonThreshold

/-- After bytes have been taken, the other side may be told to go on. -/
theorem restarts_afterTaken : Restarts t t.afterTaken := by
  have htell : freeSpace t.rBuffer > t.xonThreshold → Restarts t (t.tyRdXoff false) := by
    intro hfree
    obtain ⟨hx, hoff, hon⟩ := tyRdXoff_flow (t := t) false
    exact ⟨hoff, hon, (tyRdXoff_buffers false).2, .inr ⟨hx, hfree⟩⟩
  obtain ⟨u, hu, heq⟩ : ∃ u, Restarts t u ∧
      t.afterTaken = if !isEmpty u.rBuffer then { u with rSem := u.rSem + 1 } else u := by
    refine ⟨_, ?_, rfl⟩
    by_cases hset : (isSet t.options OPT_TANDEM && t.rState.xoff) = true
    · rw [if_pos hset]
      dsimp only
      split_ifs with hline hfree hfree
      · exact htell (by omega)
      · exact ⟨rfl, rfl, rfl, .inl rfl⟩
      · exact htell hfree
      · exact ⟨rfl, rfl, rfl, .inl rfl⟩
    · rw [if_neg hset]
      exact ⟨rfl, rfl, rfl, .inl rfl⟩
  rw [heq]
  split_ifs <;> exact ⟨hu.xoffThreshold, hu.xonThreshold, hu.rBuffer, hu.xoff⟩

/-- What a reader makes of the device. -/
theorem writeOut_flow {maxByteSize : ℕ} {bytes : List UInt8}
    (h : t.writeOut maxByteSize = some (bytes, t')) :
    t'.xoffThreshold = t.xoffThreshold ∧ t'.xonThreshold = t.xonThreshold ∧
      (t'.rState.xoff = t.rState.xoff ∨ t'.rState.xoff = false ∧
      freeSpace t'.rBuffer > t.xonThreshold) ∧
      (t'.rBuffer = t.rBuffer ∨ ∃ n, readn t.rBuffer n = some (bytes, t'.rBuffer)) := by
  unfold writeOut at h
  split_ifs at h
  · obtain ⟨-, rfl⟩ := Prod.mk.inj (Option.some.inj h)
    exact ⟨rfl, rfl, .inl rfl, .inl rfl⟩
  · obtain ⟨⟨_, u⟩, htake, heq⟩ := Option.map_eq_some_iff.1 h
    obtain ⟨rfl, rfl⟩ := Prod.mk.inj heq
    obtain ⟨htaken, hread⟩ := takeBytes_flow htake
    have hafter := restarts_afterTaken (t := u)
    refine ⟨hafter.xoffThreshold.trans htaken.xoffThreshold,
      hafter.xonThreshold.trans htaken.xonThreshold, ?_⟩
    rw [hafter.rBuffer]
    refine ⟨?_, .inr hread⟩
    rcases hafter.xoff with hsame | ⟨hx, hfree⟩
    · exact .inl (hsame.trans htaken.xoff)
    · have hon : u.xonThreshold = t.xonThreshold := htaken.xonThreshold
      exact .inr ⟨hx, hon ▸ hfree⟩

/-- Flushing tells the other side to go on. -/
theorem flushReadBuffer_flow : t.flushReadBuffer.rState.xoff = false ∧
    t.flushReadBuffer.xoffThreshold = t.xoffThreshold ∧
      t.flushReadBuffer.xonThreshold = t.xonThreshold ∧
      t.flushReadBuffer.rBuffer = reset t.rBuffer := by
  obtain ⟨hx, hoff, hon⟩ := tyRdXoff_flow (t := { t with
    rState.flushingRBuffer := true, rBuffer := reset t.rBuffer, bytesInUnfinishedLine := 0,
      rSem := 0 }) false
  exact ⟨hx, hoff, hon, (tyRdXoff_buffers false).2⟩

/-- What a change of the options makes of the device: it may be restarted, and the buffer be
    emptied. -/
structure Released (t t' : Tty B) : Prop where
  xoffThreshold : t'.xoffThreshold = t.xoffThreshold
  xonThreshold : t'.xonThreshold = t.xonThreshold
  xoff : t'.rState.xoff = t.rState.xoff ∨ t'.rState.xoff = false
  rBuffer : t'.rBuffer = t.rBuffer ∨ t'.rBuffer = reset t.rBuffer

/-- Options that are set may tell it as well. -/
theorem released_fioSetOptions (arg : BitVec 32) : Released t (t.fioSetOptions arg) := by
  obtain ⟨u, hu, heq⟩ : ∃ u : Tty B, Released t u ∧ t.fioSetOptions arg =
      if isSet t.options OPT_TANDEM && isSet u.options OPT_TANDEM then
        (u.tyRdXoff false).tyWrtXoff false else u := by
    refine ⟨_, ?_, rfl⟩
    dsimp only
    split_ifs
    · obtain ⟨hx, hoff, hon, hbuffer⟩ := flushReadBuffer_flow (t := { t with options := arg })
      exact ⟨hoff, hon, .inr hx, .inr hbuffer⟩
    · exact ⟨rfl, rfl, .inl rfl, .inl rfl⟩
  rw [heq]
  split_ifs
  · obtain ⟨hx, hoff, hon⟩ := tyRdXoff_flow (t := u) false
    have hbuffer := (tyRdXoff_buffers (t := u) false).2
    have hwrite := sameInput_tyWrtXoff (t := u.tyRdXoff false) false
    exact ⟨hwrite.xoffThreshold.trans (hoff.trans hu.xoffThreshold),
      hwrite.xonThreshold.trans (hon.trans hu.xonThreshold), .inr (hwrite.xoff.trans hx),
      (hwrite.rBuffer.trans hbuffer) ▸ hu.rBuffer⟩
  · exact hu

end Tty

/-! ## The space left -/

namespace SRingBuffer

variable {T : Type*} {b b' : SRingBuffer T}

/-- The free space once `n` elements have been offered. -/
def freeAfter (b : SRingBuffer T) (n : ℕ) : ℤ :=
  if b.wIndex + 1 < b.rIndex then b.rIndex - b.wIndex - min (n : ℤ) (b.rIndex - b.wIndex - 1)
  else b.freeSpace

/-- The room behind the end that has wrapped around. -/
theorem freeSpace_of_lt (hb : b.InRange) (hcap : b.capacity < 2 ^ 30) (h : b.wIndex < b.rIndex) :
    b.freeSpace = b.rIndex - b.wIndex := by
  obtain ⟨-, hr₀, hr, hw₀, hw⟩ := hb
  have hsum : b.capacity + b.rIndex - b.wIndex = b.rIndex - b.wIndex + b.capacity := by omega
  rw [freeSpace, sint_eq (by omega) (by omega), Int.tmod_eq_emod_of_nonneg (by omega), hsum,
    Int.add_emod_right, Int.emod_eq_of_lt (by omega) (by omega)]

/-- The room after some bytes have been written. -/
theorem freeSpace_writes (hb : b.InRange) (hcap : b.capacity < 2 ^ 30) (es : List T) :
    (b.writes es).freeSpace = b.freeAfter es.length := by
  induction es generalizing b with
  | nil =>
    rw [freeAfter]
    split_ifs with hroom
    · change b.freeSpace = _
      rw [freeSpace_of_lt hb hcap (by omega), List.length_nil]
      omega
    · rfl
  | cons e es ih =>
    by_cases hroom : b.wIndex + 1 < b.rIndex
    · obtain ⟨b₁, hwrite, hb₁, -, hw₁, hr₁, hcap₁⟩ := write_eq hb hroom e
      have hnext : b.writes (e :: es) = b₁.writes es := by
        rw [writes, List.foldl_cons, hwrite]
        rfl
      rw [hnext, ih hb₁ (by omega), freeAfter, freeAfter, if_pos hroom, List.length_cons, hw₁, hr₁]
      push_cast
      split_ifs with hroom₁
      · omega
      · rw [freeSpace_of_lt hb₁ (by omega) (by omega)]
        omega
    · have hfull : b.isFull = true := (isFull_iff hb hcap).2 (by omega)
      rw [writes_of_isFull hfull, freeAfter, if_neg hroom]

/-- What is read from is left in range. -/
theorem InRange.readn {n : ℤ} {es : List T} (hb : b.InRange) (h : b.readn n = some (es, b')) :
    b'.InRange ∧ b'.capacity = b.capacity := by
  have hcopy : ∀ {fuel : ℕ} {r count r' : ℤ} {es : List T}, 0 ≤ r → r < b.capacity →
      copyOut b.data b.capacity fuel r count = some (es, r') → 0 ≤ r' ∧ r' < b.capacity := by
    intro fuel
    induction fuel with
    | zero =>
      intro r count r' es h₀ hlt h
      rw [copyOut] at h
      split_ifs at h
      obtain ⟨-, rfl⟩ := Prod.mk.inj (Option.some.inj h)
      exact ⟨h₀, hlt⟩
    | succ fuel ih =>
      intro r count r' es h₀ hlt h
      rw [copyOut] at h
      split_ifs at h with hpos
      · obtain ⟨⟨_, _⟩, hrest, heq⟩ := Option.map_eq_some_iff.1 h
        obtain ⟨-, rfl⟩ := Prod.mk.inj heq
        rw [advance_eq hb.capacity_lt h₀ (by omega) (by omega)] at hrest
        exact ih (Int.emod_nonneg _ (by omega)) (Int.emod_lt_of_pos _ (by omega)) hrest
      · obtain ⟨-, rfl⟩ := Prod.mk.inj (Option.some.inj h)
        exact ⟨h₀, hlt⟩
  rw [SRingBuffer.readn] at h
  obtain ⟨⟨_, r'⟩, hcopied, heq⟩ := Option.map_eq_some_iff.1 h
  obtain ⟨-, rfl⟩ := Prod.mk.inj heq
  obtain ⟨h₀, hlt⟩ := hcopy hb.rIndex_nonneg hb.rIndex_lt hcopied
  exact ⟨⟨hb.capacity_lt, h₀, hlt, hb.wIndex_nonneg, hb.wIndex_lt⟩, rfl⟩

end SRingBuffer

namespace Tty

open OptionFlags CharBuffer

variable {t t' : Tty BlockBuffer} {c : UInt8}

/-- The read buffer is as `init` and `FIORBUFSET` leave it, and its indices are in range. -/
structure Fits (t : Tty BlockBuffer) : Prop where
  inRange : t.rBuffer.InRange
  capacity : t.rBuffer.capacity ≤ MaxInput + 1

/-- The bytes offered to the buffer without `OPT_LINE`, of which the second is the echo. -/
def offered (t : Tty BlockBuffer) : ℕ :=
  if isSet t.options OPT_ECHO && !t.wState.busy && !t.wState.flushingWBuffer then 2 else 1

theorem foldl_write_toSRingBuffer (b : BlockBuffer) (cs : List UInt8) :
    (cs.foldl (fun buf c => (write buf c).2) b).toSRingBuffer = b.toSRingBuffer.writes cs := by
  induction cs generalizing b with
  | nil => rfl
  | cons c cs ih => exact ih _

/-- Without `OPT_LINE`, the character is offered first, and its echo if there is one. -/
theorem received_freeSpace {ret : ErrNo} (ht : t.Fits) (hraw : isSet t.options OPT_LINE = false)
    (hreader : t.ForReader c) (h : t.iSendDataToTty c = some (ret, t')) :
    freeSpace t'.rBuffer = t.rBuffer.freeAfter t.offered := by
  have hcap : t.rBuffer.capacity < 2 ^ 30 := by
    have := ht.capacity
    rw [MaxInput] at this
    omega
  have hstore : t.store (t.typed c) = t.receiveRaw (t.typed c) := by
    rw [store, if_neg (ne_true_of_eq_false hraw)]
  have hring :
      t'.rBuffer.toSRingBuffer = t.rBuffer.toSRingBuffer.writes (t.typed c :: t.echoing c) := by
    rw [(received_buffers h).2, if_pos hreader, foldl_write_toSRingBuffer, hstore]
    rfl
  have hspace : freeSpace t'.rBuffer = t.rBuffer.freeAfter (t.echoing c).length.succ := by
    change t'.rBuffer.toSRingBuffer.freeSpace = _
    rw [hring, SRingBuffer.freeSpace_writes ht.inRange hcap]
    rfl
  rw [hspace]
  by_cases hroom : t.rBuffer.wIndex + 1 < t.rBuffer.rIndex
  -- With room for the character there is no error, and it is echoed if it is to be.
  · obtain ⟨b, hwrite, -⟩ := SRingBuffer.write_eq ht.inRange hroom (t.typed c)
    have hok : (t.receiveRaw (t.typed c)).1 = .ENONE := by
      change (if (t.rBuffer.toSRingBuffer.write (t.typed c)).1 then ErrNo.ENONE else .EFAULT) = _
      rw [hwrite]
      rfl
    have hecho :
        t.echoing c = if isSet t.options OPT_ECHO && !t.wState.busy && !t.wState.flushingWBuffer
        then
        [t.typed c] else [] := by
      have hself :
          (t.receiveRaw (t.typed c)).2.2.2.echo (t.typed c) (t.receiveRaw (t.typed c)).2.2.1 =
          [t.typed c] := by
        rw [echo, if_neg]
        exact ne_true_of_eq_false hraw
      rw [echoing, if_pos hreader, hstore]
      dsimp only
      rw [hok, hself, beq_self_eq_true, Bool.and_true]
      rfl
    rw [hecho, offered]
    split_ifs <;> rfl
  · rw [SRingBuffer.freeAfter, SRingBuffer.freeAfter, if_neg hroom, if_neg hroom]

/-- A buffer that is emptied. -/
theorem Fits.reset (ht : t.Fits) (h : t'.rBuffer = CharBuffer.reset t.rBuffer) : t'.Fits := by
  have hcap := ht.inRange.rIndex_lt
  have hr₀ := ht.inRange.rIndex_nonneg
  constructor <;> rw [h]
  · exact ⟨ht.inRange.capacity_lt, Int.le_refl 0, Int.lt_of_le_of_lt hr₀ hcap, Int.le_refl 0,
      Int.lt_of_le_of_lt hr₀ hcap⟩
  · exact ht.capacity

/-- The buffer is the same. -/
theorem Fits.congr (ht : t.Fits) (h : t'.rBuffer = t.rBuffer) : t'.Fits := by
  constructor <;> rw [h]
  · exact ht.inRange
  · exact ht.capacity

/-- A byte is received. -/
theorem Fits.received {ret : ErrNo} (ht : t.Fits) (h : t.iSendDataToTty c = some (ret, t')) :
    t'.Fits := by
  have hstore : (t.store (t.typed c)).2.2.2.Fits := by
    rcases (store_frame (t := t) (c := t.typed c)).rBuffer with hsame | ⟨e, hwrite⟩
    · exact ht.congr hsame
    · obtain ⟨hrange, hcap, -⟩ := ht.inRange.write e
      constructor <;> rw [hwrite]
      · exact hrange
      · exact hcap.trans_le ht.capacity
  have hbuffer := (received_buffers h).2
  split_ifs at hbuffer
  · obtain ⟨hrange, hcap, -⟩ := hstore.inRange.writes (t.echoing c)
    rw [← foldl_write_toSRingBuffer] at hrange hcap
    rw [← hbuffer] at hrange hcap
    exact ⟨hrange, hcap.trans_le hstore.capacity⟩
  · exact ht.congr hbuffer

/-- No event takes the indices out of range. -/
theorem Fits.step {e : TtyEvent} (ht : t.Fits) (h : t.step e = some t') : t'.Fits := by
  -- A read and a flush change the buffer, but not its size; most events leave it alone.
  cases e with
  | receive c =>
    obtain ⟨⟨ret, _⟩, hsend, rfl⟩ := Option.map_eq_some_iff.1 h
    exact ht.received hsend
  | transmit =>
    obtain rfl := Option.some.inj h
    exact ht.congr sameInput_transmit.rBuffer
  | readIn buffer =>
    obtain ⟨⟨n, _⟩, hread, rfl⟩ := Option.map_eq_some_iff.1 h
    exact ht.congr (sameInput_readIn hread).rBuffer
  | enterWriteOut => exact ht.congr (sameInput_enterWriteOut h).rBuffer
  | writeOut maxByteSize =>
    obtain ⟨⟨bytes, _⟩, hwrite, rfl⟩ := Option.map_eq_some_iff.1 h
    rcases (writeOut_flow hwrite).2.2.2 with hsame | ⟨n, hread⟩
    · exact ht.congr hsame
    · obtain ⟨⟨_, ring⟩, hring, heq⟩ := Option.map_eq_some_iff.1 hread
      obtain ⟨hrange, hcap⟩ := ht.inRange.readn hring
      have hbuffer := (Prod.mk.inj heq).2
      constructor <;> rw [← hbuffer]
      · exact hrange
      · exact hcap.trans_le ht.capacity
  | flushReadBuffer =>
    obtain rfl := Option.some.inj h
    exact ht.reset flushReadBuffer_flow.2.2.2
  | flushWriteBuffer =>
    obtain rfl := Option.some.inj h
    exact ht.congr rfl
  | setOptions arg =>
    obtain rfl := Option.some.inj h
    exact (released_fioSetOptions arg).rBuffer.elim ht.congr ht.reset

/-- A new buffer does not tell the other side anything. -/
theorem rBufferSet_xoff {n : ℤ} {ok : Bool} {b : BlockBuffer} :
    (t.rBufferSet n ok b).2.rState.xoff = t.rState.xoff := by
  cases ok <;> rfl

/-- The thresholds of a new buffer. -/
theorem rBufferSet_true {n : ℕ} {b : BlockBuffer} {ret : ErrNo} (hn : n ≤ 256)
    (h : t.rBufferSet n true b = (ret, t')) :
    t'.xoffThreshold = PERCENT (100 - XoffPercent) n ∧
      t'.xonThreshold = PERCENT (100 - XonPercent) n := by
  simp only [rBufferSet, sintPERCENT_xoff hn, sintPERCENT_xon hn] at h
  obtain ⟨-, rfl⟩ := Prod.mk.inj h
  exact ⟨rfl, rfl⟩

/-- If there is no memory, they stay. -/
theorem rBufferSet_false {n : ℤ} {b : BlockBuffer} {ret : ErrNo}
    (h : t.rBufferSet n false b = (ret, t')) :
    t'.xoffThreshold = t.xoffThreshold ∧ t'.xonThreshold = t.xonThreshold := by
  obtain ⟨-, rfl⟩ := Prod.mk.inj h
  exact ⟨rfl, rfl⟩

end Tty

/-! ## Runs -/

namespace Sized

open Tty OptionFlags CharBuffer

def step (s : Sized) : SizedEvent → Option Sized
  | .tty e => (s.tty.step e).map fun tty => { s with tty }
  | .resize arg block => (s.tty.fioRBufSet true arg block).map fun (ret, tty) =>
    { tty, size := if ret = .ENONE then (min arg MaxInput).toNat else s.size }

/-- The thresholds are those of the size. -/
def Scaled (s : Sized) : Prop :=
  s.tty.xoffThreshold = PERCENT (100 - XoffPercent) s.size ∧
    s.tty.xonThreshold = PERCENT (100 - XonPercent) s.size

/-- The device is stopped below the one threshold only, and restarted above the other one only,
    unless it is by a flush or a change of the options. -/
structure Hysteretic (s : Sized) (e : SizedEvent) (s' : Sized) : Prop where
  stops : s.tty.rState.xoff = false → s'.tty.rState.xoff = true →
    freeSpace s'.tty.rBuffer < s'.tty.xoffThreshold
  restarts : s.tty.rState.xoff = true → s'.tty.rState.xoff = false → e.releases = false →
    freeSpace s'.tty.rBuffer > s'.tty.xonThreshold
  scaled : s'.Scaled

/-- A character received without `OPT_LINE` while the device is stopped leaves no free space between
    the thresholds. And if the size asked for is the capacity, the thresholds are those of it. -/
def Patient (s : Sized) : SizedEvent → Prop
  | .tty (.receive c) => s.tty.rState.xoff = true → isSet s.tty.options OPT_TANDEM = true →
      isSet s.tty.options OPT_LINE = false → s.tty.ForReader c →
      s.tty.rBuffer.freeAfter s.tty.offered ≤ s.tty.xoffThreshold ∨
        s.tty.xonThreshold < s.tty.rBuffer.freeAfter s.tty.offered
  | .resize arg _ => min arg MaxInput = s.tty.rBuffer.capacity →
      s.tty.xoffThreshold = PERCENT (100 - XoffPercent) (min arg MaxInput).toNat ∧
        s.tty.xonThreshold = PERCENT (100 - XonPercent) (min arg MaxInput).toNat
  | _ => True

/-- A terminal that is in order. -/
structure Start (s : Sized) : Prop where
  fits : s.tty.Fits
  scaled : s.Scaled

variable {s s' : Sized} {c : UInt8}

/-- An event that leaves the input alone. -/
theorem Hysteretic.of_sameInput {e : SizedEvent} {tty : Tty BlockBuffer} (hs : s.Start)
    (h : SameInput s.tty tty) : Hysteretic s e { s with tty } := by
  refine ⟨fun hx hx' => ?_, fun hx hx' => ?_, ?_⟩
  · rw [h.xoff, hx] at hx'
    cases hx'
  · rw [h.xoff, hx] at hx'
    cases hx'
  · exact ⟨h.xoffThreshold.trans hs.scaled.1, h.xonThreshold.trans hs.scaled.2⟩

/-- If the device is not restarted too early, the character leaves the free space below the one
    threshold, or above the other one. -/
theorem patient_received (hs : s.Start)
    (h : ∀ s', s.step (.tty (.receive c)) = some s' → Hysteretic s (.tty (.receive c)) s') :
    s.Patient (.tty (.receive c)) := by
  intro hx htandem hraw hreader
  -- The character gets through, and the device is told of the free space it leaves.
  obtain ⟨ret, t', hsend⟩ : ∃ ret t', s.tty.iSendDataToTty c = some (ret, t') :=
    ⟨_, _, hreader.iSendDataToTty⟩
  have hstep : s.step (.tty (.receive c)) = some { s with tty := t' } := by
    rw [step, Tty.step, hsend]
    rfl
  have hhyst := h _ hstep
  obtain ⟨-, hon, htold⟩ := received_flow hsend
  have hspace := received_freeSpace hs.fits hraw hreader hsend
  rw [if_pos hreader, hspace, tells, htandem, hraw, hx] at htold
  by_cases hlow : s.tty.rBuffer.freeAfter s.tty.offered ≤ s.tty.xoffThreshold
  · exact .inl hlow
  · have hrestart := hhyst.restarts hx (htold.trans (decide_eq_false hlow)) rfl
    rw [hspace] at hrestart
    exact .inr (hon ▸ hrestart)

/-- A byte is received. -/
theorem hysteretic_received (hs : s.Start) (hpatient : s.Patient (.tty (.receive c)))
    (hstep : s.step (.tty (.receive c)) = some s') : Hysteretic s (.tty (.receive c)) s' := by
  obtain ⟨t', ht', rfl⟩ := Option.map_eq_some_iff.1 hstep
  obtain ⟨⟨ret, _⟩, hsend, rfl⟩ := Option.map_eq_some_iff.1 ht'
  obtain ⟨hoff, hon, htold⟩ := received_flow hsend
  refine ⟨fun hx hx' => ?_, fun hx hx' _ => ?_, hoff.trans hs.scaled.1, hon.trans hs.scaled.2⟩
  · rw [hx'] at htold
    dsimp only at hoff ⊢
    split_ifs at htold with hreader
    · unfold tells at htold
      rw [hx, if_neg Bool.false_ne_true] at htold
      split_ifs at htold
      rw [hoff]
      exact of_decide_eq_true htold.symm
    · rw [hx] at htold
      cases htold
  · rw [hx'] at htold
    dsimp only at hon ⊢
    split_ifs at htold with hreader
    · unfold tells at htold
      rw [hx, if_pos rfl] at htold
      split_ifs at htold with htandem
      rw [Bool.and_eq_true, Bool.not_eq_true'] at htandem
      have hspace := received_freeSpace hs.fits htandem.2 hreader hsend
      rw [hspace] at htold ⊢
      -- It is not below the threshold it has been compared with, so that it is above the other one.
      have hhigh := of_decide_eq_false htold.symm
      rw [hon]
      exact (hpatient hx htandem.1 htandem.2 hreader).resolve_left hhigh
    · rw [hx] at htold
      cases htold

/-- A new buffer. -/
theorem fits_of_fresh {t : Tty BlockBuffer} {n : ℕ} (hn : 0 < n) (hmax : n ≤ MaxInput + 1)
    (hcap : t.rBuffer.capacity = n) (hr : t.rBuffer.rIndex = 0) (hw : t.rBuffer.wIndex = 0) :
    t.Fits := by
  have hle : (n : ℤ) ≤ 256 := Int.ofNat_le.2 hmax
  refine ⟨⟨?_, ?_, ?_, ?_, ?_⟩, ?_⟩
  · omega
  · omega
  · omega
  · omega
  · omega
  · rw [hcap, MaxInput]
    omega

/-- What a resize does that is not to the capacity there is. -/
theorem resized {arg : ℤ} {block : HeapBlock} (hs : s.Start)
    (hne : min arg MaxInput ≠ s.tty.rBuffer.capacity)
    (hstep : s.step (.resize arg block) = some s') :
    s'.tty.rState.xoff = s.tty.rState.xoff ∧ s'.Start := by
  obtain ⟨⟨ret, t'⟩, hset, rfl⟩ := Option.map_eq_some_iff.1 hstep
  rw [fioRBufSet_of_ne hne] at hset
  obtain ⟨⟨ok, b⟩, hinit, heq⟩ := Option.map_eq_some_iff.1 hset
  have hpos : 0 < min arg (MaxInput : ℤ) := by
    by_contra hneg
    rw [init_eq_none (fun h => hneg (h rfl))] at hinit
    cases hinit
  have hle : min arg (MaxInput : ℤ) ≤ 255 := by
    rw [MaxInput]
    omega
  -- The assertion has held, so that the size is from 1 to 255.
  obtain ⟨n, hn⟩ : ∃ n : ℕ, min arg (MaxInput : ℤ) = n := ⟨(min arg (MaxInput : ℤ)).toNat, by omega⟩
  rw [hn] at heq hinit hpos hle
  rw [init_eq fun _ => hpos] at hinit
  obtain ⟨hok, hb⟩ := Prod.mk.inj (Option.some.inj hinit)
  have hbuffer : t'.rBuffer = b :=
    (congrArg (fun x : ErrNo × Tty BlockBuffer => x.2.rBuffer) heq).symm.trans rBufferSet_rBuffer
  rw [← hb] at hbuffer
  have hfits : t'.Fits :=
    fits_of_fresh (n := n) (by omega) (by rw [MaxInput]; omega) (by rw [hbuffer]) (by rw [hbuffer])
      (by rw [hbuffer])
  refine ⟨?_, hfits, ?_⟩
  · exact (congrArg (fun x : ErrNo × Tty BlockBuffer => x.2.rState.xoff) heq).symm.trans
      rBufferSet_xoff
  cases ok with
  | true =>
    have hret : ret = .ENONE := (congrArg Prod.fst heq).symm
    obtain ⟨hlow, hhigh⟩ := rBufferSet_true (by omega) heq
    rw [Scaled]
    dsimp only
    rw [if_pos hret, hn, Int.toNat_natCast]
    exact ⟨hlow, hhigh⟩
  | false =>
    have hret : ret = .ENOMEM := (congrArg Prod.fst heq).symm
    obtain ⟨hlow, hhigh⟩ := rBufferSet_false heq
    rw [Scaled]
    dsimp only
    rw [if_neg (hret ▸ (by decide : ErrNo.ENOMEM ≠ .ENONE))]
    exact ⟨hlow.trans hs.scaled.1, hhigh.trans hs.scaled.2⟩

/-- A new buffer, and when the thresholds are kept with it. -/
theorem hysteretic_resize_iff {arg : ℤ} {block : HeapBlock} (hs : s.Start) :
    (∀ s', s.step (.resize arg block) = some s' → Hysteretic s (.resize arg block) s') ↔
      s.Patient (.resize arg block) := by
  by_cases hsize : min arg MaxInput = s.tty.rBuffer.capacity
  · have hstep : s.step (.resize arg block) = some { s with size := (min arg MaxInput).toNat } := by
      rw [step, fioRBufSet_of_eq hsize]
      rfl
    constructor
    · exact fun h _ => (h _ hstep).scaled
    · intro hpatient s' hstep'
      obtain rfl := Option.some.inj (hstep.symm.trans hstep')
      refine ⟨fun hx hx' => ?_, fun hx hx' => ?_, hpatient hsize⟩
      · exact absurd (hx.symm.trans hx') (by decide)
      · exact absurd (hx.symm.trans hx') (by decide)
  · refine iff_of_true (fun s' hstep => ?_) fun h => absurd h hsize
    obtain ⟨hxoff, hs'⟩ := resized hs hsize hstep
    refine ⟨fun hx hx' => ?_, fun hx hx' => ?_, hs'.scaled⟩
    · exact absurd ((hxoff.trans hx).symm.trans hx') (by decide)
    · exact absurd ((hxoff.trans hx).symm.trans hx') (by decide)

/-- Who receives no character makes no mistake. -/
theorem hysteretic_tty {e : TtyEvent} (hs : s.Start) (he : ∀ c, e ≠ .receive c)
    (hstep : s.step (.tty e) = some s') : Hysteretic s (.tty e) s' := by
  obtain ⟨t', ht', rfl⟩ := Option.map_eq_some_iff.1 hstep
  -- Only a receive sends XOFF; what else changes the flow clears it.
  cases e with
  | receive c => exact absurd rfl (he c)
  | transmit =>
    obtain rfl := Option.some.inj ht'
    exact .of_sameInput hs sameInput_transmit
  | readIn buffer =>
    obtain ⟨⟨n, _⟩, hread, rfl⟩ := Option.map_eq_some_iff.1 ht'
    exact .of_sameInput hs (sameInput_readIn hread)
  | enterWriteOut => exact .of_sameInput hs (sameInput_enterWriteOut ht')
  | writeOut maxByteSize =>
    obtain ⟨⟨bytes, _⟩, hwrite, rfl⟩ := Option.map_eq_some_iff.1 ht'
    obtain ⟨hoff, hon, hxoff, -⟩ := writeOut_flow hwrite
    refine ⟨fun hx hx' => ?_, fun hx hx' _ => ?_, hoff.trans hs.scaled.1, hon.trans hs.scaled.2⟩
    · rcases hxoff with hsame | ⟨hfalse, -⟩
      · cases hx'.symm.trans (hsame.trans hx)
      · cases hx'.symm.trans hfalse
    · -- XON is sent only where the buffer has got below the threshold.
      rcases hxoff with hsame | ⟨-, hfree⟩
      · cases hx'.symm.trans (hsame.trans hx)
      · dsimp only at hon ⊢
        rw [hon]
        exact hfree
  | flushReadBuffer =>
    obtain rfl := Option.some.inj ht'
    obtain ⟨hfalse, hoff, hon, -⟩ := flushReadBuffer_flow (t := s.tty)
    refine ⟨fun _ hx' => ?_, fun _ _ hno => ?_, hoff.trans hs.scaled.1, hon.trans hs.scaled.2⟩
    · cases hx'.symm.trans hfalse
    · cases hno
  | flushWriteBuffer =>
    obtain rfl := Option.some.inj ht'
    exact .of_sameInput hs ⟨⟨rfl, rfl, rfl⟩, rfl⟩
  | setOptions arg =>
    obtain rfl := Option.some.inj ht'
    have hreleased := released_fioSetOptions (t := s.tty) arg
    refine ⟨fun hx hx' => ?_, fun _ _ hno => ?_,
      hreleased.xoffThreshold.trans hs.scaled.1, hreleased.xonThreshold.trans hs.scaled.2⟩
    · rcases hreleased.xoff with hsame | hfalse
      · cases hx'.symm.trans (hsame.trans hx)
      · cases hx'.symm.trans hfalse
    · cases hno

/-- Every event. -/
theorem hysteretic_step_iff {e : SizedEvent} (hs : s.Start) :
    (∀ s', s.step e = some s' → Hysteretic s e s') ↔ s.Patient e := by
  cases e with
  | resize arg block => exact hysteretic_resize_iff hs
  | tty e =>
    by_cases he : ∀ c, e ≠ .receive c
    · refine iff_of_true (fun s' => hysteretic_tty hs he) ?_
      cases e with
      | receive c => exact absurd rfl (he c)
      | _ => trivial
    · push Not at he
      obtain ⟨c, rfl⟩ := he
      exact ⟨patient_received hs, fun hpatient _ => hysteretic_received hs hpatient⟩

/-- A step that is taken well leaves the terminal in order. -/
theorem Start.step {e : SizedEvent} (hs : s.Start) (hpatient : s.Patient e)
    (hstep : s.step e = some s') :
    s'.Start := by
  refine ⟨?_, ((hysteretic_step_iff hs).2 hpatient _ hstep).scaled⟩
  cases e with
  | tty e =>
    obtain ⟨t', ht', rfl⟩ := Option.map_eq_some_iff.1 hstep
    exact hs.fits.step ht'
  | resize arg block =>
    by_cases hsize : min arg MaxInput = s.tty.rBuffer.capacity
    · obtain ⟨_, hset, rfl⟩ := Option.map_eq_some_iff.1 hstep
      rw [fioRBufSet_of_eq hsize] at hset
      obtain rfl := Option.some.inj hset
      exact hs.fits
    · exact (resized hs hsize hstep).2.fits

/-- A terminal is in order once it is initialised. -/
theorem start_init {t : Tty BlockBuffer} {n : ℕ} {rBuffer wBuffer : BlockBuffer} (hn : 0 < n)
    (hmax : n ≤ MaxInput + 1) (hcap : rBuffer.capacity = n) :
    Start ⟨t.init n rBuffer wBuffer, n⟩ := by
  obtain ⟨u, heq, hbuffer, hoff, hon⟩ : ∃ u : Tty BlockBuffer,
      t.init n rBuffer wBuffer = u.flushReadBuffer.flushWriteBuffer ∧ u.rBuffer = rBuffer ∧
      u.xoffThreshold = PERCENT (100 - XoffPercent) n ∧
        u.xonThreshold = PERCENT (100 - XonPercent) n := by
    refine ⟨_, rfl, rfl, ?_⟩
    rw [if_neg (Nat.not_lt.2 hmax)]
    exact ⟨rfl, rfl⟩
  obtain ⟨-, hoff', hon', hreset⟩ := flushReadBuffer_flow (t := u)
  have hring : (t.init n rBuffer wBuffer).rBuffer = reset rBuffer := by
    rw [heq, ← hbuffer]
    exact hreset
  refine ⟨fits_of_fresh hn hmax ?_ ?_ ?_, ?_, ?_⟩
  · rw [hring]
    exact hcap
  · rw [hring]
    rfl
  · rw [hring]
    rfl
  · exact (congrArg xoffThreshold heq).trans (hoff'.trans hoff)
  · exact (congrArg xonThreshold heq).trans (hon'.trans hon)

/-- The steps of a run are what they should be if and only if whoever receives a character while the
    device is stopped leaves no free space between the thresholds, and no failed resize is done
    again. -/
theorem hysteretic_iff (hs : s.Start) (es : List SizedEvent) :
    Admissible step (fun s e => ∀ s', s.step e = some s' → Hysteretic s e s') s es ↔
      Admissible step Patient s es :=
  Admissible.iff (G := fun _ _ => True) (I := Start) (fun hs _ => hysteretic_step_iff hs)
    (fun hs _ => hs.step) hs (.of_forall (fun _ _ => trivial) es)

/-- A terminal with `OPT_TANDEM`, and a buffer of 64 bytes. -/
def tandem64 (rIndex wIndex : ℤ) : Sized where
  tty := { blank ⟨⟨rIndex, wIndex, 64, fun _ => 0x61⟩, 0x1000⟩ with
    options := OPT_TANDEM.val
    xoffThreshold := PERCENT (100 - XoffPercent) 64
    xonThreshold := PERCENT (100 - XonPercent) 64 }
  size := 64

/-- A reader that reads enough restarts the device. -/
theorem reader_restarts :
    Admissible step (fun s e => ∀ s', s.step e = some s' → Hysteretic s e s') (tandem64 10 0)
    [.tty (.receive 0x61), .tty .enterWriteOut, .tty (.writeOut 30), .tty (.receive 0x62)] := by
  refine (hysteretic_iff (s := tandem64 10 0)
    ⟨⟨⟨by decide, by decide, by decide, by decide, by decide⟩, by decide⟩, rfl, rfl⟩ _).2 ?_
  refine ⟨fun hx => absurd hx (by decide),
    fun s₁ h₁ => ⟨trivial, fun s₂ h₂ => ⟨trivial, fun s₃ h₃ => ⟨?_, ?_⟩⟩⟩⟩
  · obtain rfl := Option.some.inj h₁
    obtain rfl := Option.some.inj h₂
    obtain rfl := Option.some.inj h₃
    exact fun hx => absurd hx (by decide)
  · exact fun _ _ => trivial

/-- A reader that reads less leaves the device stopped, and the next character restarts it. And a
    resize that has failed for want of memory succeeds at once when it is done again, with the
    thresholds of the size before. -/
theorem not_hysteretic :
    ¬ Admissible step (fun s e => ∀ s', s.step e = some s' → Hysteretic s e s') (tandem64 10 0)
      [.tty (.receive 0x61), .tty .enterWriteOut, .tty (.writeOut 5), .tty (.receive 0x62)] ∧
    ¬ Admissible step (fun s e => ∀ s', s.step e = some s' → Hysteretic s e s')
      ⟨(blank ⟨⟨0, 0, 64, fun _ => 0⟩, 0x1000⟩).init 64 ⟨⟨0, 0, 64, fun _ => 0⟩, 0x1000⟩
        ⟨⟨0, 0, 64, fun _ => 0⟩, 0x2000⟩, 64⟩
      [.tty (.setOptions OPT_TANDEM.val), .resize 100 ⟨0, fun _ => 0⟩,
      .resize 100 ⟨0x3000, fun _ => 0⟩] := by
  constructor
  · intro h
    have hlast := (((h.2 _ rfl).2 _ rfl).2 _ rfl).1 _ rfl
    exact absurd (hlast.restarts rfl rfl rfl) (by decide)
  · intro h
    have hlast := ((h.2 _ rfl).2 _ rfl).1 _ rfl
    exact absurd hlast.scaled.1 (by decide)

end Sized

end DemoOs
