import DemoOs.Tty.LineDiscipline

/-!
# Flushing the output

`flushWriteBuffer` empties the buffer, and leaves the second half of a pair CR LF that
`iTransmitDataOfTty` has begun: the LF is handed out after the flush. A terminal with an empty
buffer takes every write for too much (`SRingBuffer.Fresh.isFull`), so that the LF is all that is
handed out. It depends on `_cr`, on whether an XON or XOFF of our own comes before it, and on
whether the output is stopped (`Tty.simulation_owed`).

So what two terminals hand out after a flush is the same if there is no LF left in either of them,
or if there is in both, at the same place (`forgets_iff`).
-/

namespace DemoOs

/-- The calls that follow a flush. -/
inductive OutputCall
  /-- A turn of the loop of `readIn`. -/
  | readIn (buffer : List UInt8)
  | wrtXoff (xoff : Bool)
  | transmit

/-- What is left to hand out. -/
@[ext]
structure Owed where
  cr : Bool
  pending : Bool
  xoff : Bool

/-- The bytes of data handed out by a call, and what is left. -/
def Owed.step (o : Owed) : OutputCall → List UInt8 × Owed
  | .readIn _ => ([], o)
  | .wrtXoff xoff => ([], { o with xoff })
  | .transmit =>
    if o.pending then ([], { o with pending := false })
    else if o.cr && !o.xoff then ([Tty.LF], { o with cr := false })
    else ([], o)

namespace Owed

variable {o p : Owed}

/-- With no LF left, nothing is handed out. -/
theorem outputs_of_cr_eq_false (h : o.cr = false) (calls : List OutputCall) :
    outputs step o calls = [] := by
  induction calls generalizing o with
  | nil => rfl
  | cons call calls ih =>
    have hstep : (o.step call).1 = [] ∧ (o.step call).2.cr = false := by
      cases call with
      | readIn buffer => exact ⟨rfl, h⟩
      | wrtXoff xoff => exact ⟨rfl, h⟩
      | transmit =>
        obtain ⟨cr, pending, xoff⟩ := o
        obtain rfl : cr = false := h
        cases pending <;> exact ⟨rfl, rfl⟩
    rw [outputs, hstep.1, ih hstep.2]
    rfl

/-- The LF comes with the second call at the latest, and with the first one if there is nothing
    before it. -/
theorem outputs_transmit : outputs step o [.wrtXoff false, .transmit] =
    (if o.cr && !o.pending then [Tty.LF] else []) ∧
    outputs step o [.wrtXoff false, .transmit, .transmit] = if o.cr then [Tty.LF] else [] := by
  obtain ⟨cr, pending, xoff⟩ := o
  cases cr <;> cases pending <;> exact ⟨rfl, rfl⟩

/-- The same is handed out whatever is called. -/
theorem outputs_eq_iff (hxoff : o.xoff = p.xoff) :
    (∀ calls, outputs step o calls = outputs step p calls) ↔
      o.cr = p.cr ∧ (o.cr = true → o.pending = p.pending) := by
  have hinj : ∀ b b' : Bool, (if b then [Tty.LF] else []) = (if b' then [Tty.LF] else []) →
      b = b' := by decide
  constructor
  · intro h
    have hfirst := h [.wrtXoff false, .transmit]
    have hboth := h [.wrtXoff false, .transmit, .transmit]
    rw [outputs_transmit.1, outputs_transmit.1] at hfirst
    rw [outputs_transmit.2, outputs_transmit.2] at hboth
    have hcr := hinj _ _ hboth
    refine ⟨hcr, fun htrue => ?_⟩
    have hpending := hinj _ _ hfirst
    rw [← hcr, htrue, Bool.true_and, Bool.true_and] at hpending
    exact Bool.not_inj hpending
  · rintro ⟨hcr, hpending⟩ calls
    cases h : o.cr with
    | true => rw [Owed.ext hcr (hpending h) hxoff]
    | false => rw [outputs_of_cr_eq_false h, outputs_of_cr_eq_false (hcr ▸ h)]

end Owed

namespace Tty

open OptionFlags CharBuffer

/-- The bytes of data handed to the device by a call, which an XON or XOFF of our own is none of. A
    writer that gets no permit waits. -/
def output {B : Type} [CharBuffer B] (t : Tty B) : OutputCall → List UInt8 × Tty B
  | .readIn buffer => ([], (t.readIn buffer).elim t Prod.snd)
  | .wrtXoff xoff => ([], t.tyWrtXoff xoff)
  | .transmit =>
    (if t.rState.pending then []
      else if t.iTransmitDataOfTty.1 = .ENONE then t.iTransmitDataOfTty.2.1.toList else [],
      t.iTransmitDataOfTty.2.2)

variable {t : Tty (SRingBuffer UInt8)} {o : Owed}

/-- After a flush, with what is left to hand out. -/
structure Owes (t : Tty (SRingBuffer UInt8)) (o : Owed) : Prop where
  wBuffer : t.wBuffer.Fresh
  flushing : t.wState.flushingWBuffer = false
  cr : t.wState.cr = o.cr
  pending : t.rState.pending = o.pending
  xoff : t.wState.xoff = o.xoff

theorem owes_flushWriteBuffer (ht : t.wBuffer.InRange) :
    t.flushWriteBuffer.Owes ⟨t.wState.cr, t.rState.pending, t.wState.xoff⟩ :=
  ⟨⟨Int.lt_of_le_of_lt ht.rIndex_nonneg ht.rIndex_lt, ht.capacity_lt, rfl, rfl⟩, rfl, rfl, rfl, rfl⟩

theorem Owes.readIn (h : t.Owes o) (buffer : List UInt8) :
    ((t.readIn buffer).elim t Prod.snd).Owes o := by
  have hwriten : writen t.wBuffer buffer = (0, t.wBuffer) :=
    SRingBuffer.writen_of_isFull h.wBuffer.isFull buffer
  simp only [Tty.readIn, hwriten, txStartup]
  split_ifs <;> exact ⟨h.wBuffer, h.flushing, h.cr, h.pending, h.xoff⟩

theorem Owes.tyWrtXoff (h : t.Owes o) (xoff : Bool) : (t.tyWrtXoff xoff).Owes { o with xoff } := by
  rw [Tty.tyWrtXoff]
  dsimp only
  split_ifs with hne
  · exact ⟨h.wBuffer, h.flushing, h.cr, h.pending, rfl⟩
  · exact ⟨h.wBuffer, h.flushing, h.cr, h.pending, rfl⟩
  · exact ⟨h.wBuffer, h.flushing, h.cr, h.pending, not_not.1 hne⟩

/-- Behind `there`, the byte is handed out, and only permits change. -/
theorem Owes.transmitted (h : t.Owes o) (hbusy : t.wState.busy = true) (c : UInt8) :
    (t.transmitted c).1 = .ENONE ∧ (t.transmitted c).2.1 = some c ∧
    (t.transmitted c).2.2.Owes o := by
  rw [Tty.transmitted]
  split_ifs
  · exact ⟨rfl, rfl, h.wBuffer, h.flushing, h.cr, h.pending, h.xoff⟩
  · exact ⟨rfl, rfl, h⟩

theorem Owes.transmit (h : t.Owes o) : (t.output .transmit).1 = (o.step .transmit).1 ∧
    (t.output .transmit).2.Owes (o.step .transmit).2 := by
  obtain ⟨cr, pending, xoff⟩ := o
  obtain ⟨hbuffer, hflushing, hcr, hpending, hxoff⟩ := h
  rw [output]
  cases pending with
  | true =>
    have heq : t.iTransmitDataOfTty = _ := if_pos hpending
    rw [heq, if_pos hpending]
    exact ⟨rfl, hbuffer, hflushing, hcr, rfl, hxoff⟩
  | false =>
    have hunpending := ne_true_of_eq_false hpending
    rw [if_neg hunpending]
    rw [iTransmitDataOfTty]
    rw [if_neg hunpending]
    cases xoff with
    | true =>
      have hstopped : (t.wState.xoff || t.wState.flushingWBuffer) = true := by
        rw [hxoff]
        rfl
      rw [if_pos hstopped, Owed.step]
      simp only [Bool.not_true, Bool.and_false, Bool.false_eq_true, if_false]
      exact ⟨rfl, hbuffer, hflushing, hcr, hpending, hxoff⟩
    | false =>
      have hgoing : ¬(t.wState.xoff || t.wState.flushingWBuffer) = true := by
        rw [hxoff, hflushing]
        exact Bool.false_ne_true
      rw [if_neg hgoing]
      cases cr with
      | true =>
        -- The second half of the pair, which the flush has left.
        obtain ⟨hret, hc, howes⟩ :=
          Owes.transmitted (t := { t with wState.cr := false, wState.busy := true })
          (o := ⟨false, false, false⟩) ⟨hbuffer, hflushing, rfl, hpending, hxoff⟩ rfl LF
        have htrue : t.wState.cr = true := hcr
        rw [if_pos htrue, if_pos hret, hc]
        exact ⟨rfl, howes⟩
      | false =>
        have hread : read t.wBuffer = (none, t.wBuffer) := by
          change SRingBuffer.read t.wBuffer = _
          rw [SRingBuffer.read, hbuffer.isEmpty]
          rfl
        rw [if_neg (ne_true_of_eq_false hcr), hread]
        exact ⟨rfl, hbuffer, hflushing, hcr, hpending, hxoff⟩

/-- After a flush, a terminal hands out what is left. -/
theorem simulation_owed : Simulation (output (B := SRingBuffer UInt8)) Owed.step Owes := by
  intro t o h call
  cases call with
  | readIn buffer => exact ⟨rfl, h.readIn buffer⟩
  | wrtXoff xoff => exact ⟨rfl, h.tyWrtXoff xoff⟩
  | transmit => exact h.transmit

/-- What follows a flush is the same after two histories if and only if the LF of a pair is left in
    both of them or in none, and with nothing of our own before it in both or in none. The options
    do not matter. -/
theorem forgets_iff {u : Tty (SRingBuffer UInt8)} (ht : t.wBuffer.InRange) (hu : u.wBuffer.InRange)
    (hxoff : t.wState.xoff = u.wState.xoff) :
    (∀ calls, outputs output t.flushWriteBuffer calls = outputs output u.flushWriteBuffer calls) ↔
      t.wState.cr = u.wState.cr ∧ (t.wState.cr = true → t.rState.pending = u.rState.pending) := by
  rw [← Owed.outputs_eq_iff (o := ⟨t.wState.cr, t.rState.pending, t.wState.xoff⟩)
    (p := ⟨u.wState.cr, u.rState.pending, u.wState.xoff⟩) hxoff]
  refine forall_congr' fun calls => ?_
  rw [simulation_owed.outputs_eq (owes_flushWriteBuffer ht),
    simulation_owed.outputs_eq (owes_flushWriteBuffer hu)]

/-- A newline to transmit, with `OPT_CRMOD`. -/
def newline : Tty (SRingBuffer UInt8) :=
  { blank ⟨7, 0, 8, fun _ => LF⟩ with options := OPT_CRMOD.val }

/-- A newline transmitted to its end is forgotten. -/
theorem newline_forgotten :
    outputs output newline.iTransmitDataOfTty.2.2.iTransmitDataOfTty.2.2.flushWriteBuffer
        [.transmit, .readIn [0x61], .transmit] =
      outputs output newline.flushWriteBuffer [.transmit, .readIn [0x61], .transmit] :=
  (forgets_iff (t := newline.iTransmitDataOfTty.2.2.iTransmitDataOfTty.2.2) (u := newline)
    ⟨by decide, by decide, by decide, by decide, by decide⟩
    ⟨by decide, by decide, by decide, by decide, by decide⟩ rfl).2 ⟨rfl,
      fun h => absurd h (by decide)⟩ _

/-- A newline of which the first half is transmitted is not: the second half comes after the flush.
    So it does with a buffer that takes what it has room for, in a terminal just initialised. -/
theorem not_forgets :
    outputs output newline.iTransmitDataOfTty.2.2.flushWriteBuffer [.transmit] = [LF] ∧
    outputs output newline.flushWriteBuffer [.transmit] = [] ∧
    ∃ n, ∃ t u : Tty Fifo,
      (((blank (.empty 16)).init 16 (.empty 16) (.empty 16)).fioSetOptions OPT_CRMOD.val) = t ∧
      t.readIn [LF] = some (n, u) ∧
        outputs output u.iTransmitDataOfTty.2.2.flushWriteBuffer [.transmit] = [LF] ∧
      outputs output t.flushWriteBuffer [.transmit] = [] :=
  ⟨by decide, by decide, _, _, _, rfl, rfl, by decide, by decide⟩

end Tty

end DemoOs
