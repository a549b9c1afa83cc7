import DemoOs.Tty.Tty
import DemoOs.Lib.Run

/-!
# Transmission

The bytes that `iTransmitDataOfTty` hands to the device, while characters received stop and restart
the output at any time. What is to be transmitted (`remaining`) are the bytes in the buffer, with a
newline as CR LF under `OPT_CRMOD`, behind the LF of a pair whose CR has been handed out already. A
call takes the first of it, unless the output is stopped (`transmit_eq`), so that nothing is lost,
repeated or reordered (`emits`).
-/

namespace DemoOs

/-- A terminal, and the bytes handed to the device by the calls that have succeeded. -/
structure Line where
  tty : Tty (SRingBuffer UInt8)
  emitted : List UInt8

/-- The calls that transmit, stop and restart. -/
inductive TxCall
  | transmit
  | wrtXoff (xoff : Bool)

namespace Line

def step (l : Line) : TxCall → Option Line
  | .transmit =>
    let r := l.tty.iTransmitDataOfTty
    some ⟨r.2.2, l.emitted ++ if r.1 = .ENONE then r.2.1.toList else []⟩
  | .wrtXoff xoff => some { l with tty := l.tty.tyWrtXoff xoff }

end Line

namespace Tty

open OptionFlags CharBuffer

variable {t t' : Tty (SRingBuffer UInt8)} {l l' : Line}

/-- What is transmitted of bytes, with or without `OPT_CRMOD`. -/
def expand (crmod : Bool) (bytes : List UInt8) : List UInt8 :=
  bytes.flatMap fun c => if crmod && c == LF then [CR, LF] else [c]

/-- What is to be transmitted. -/
def remaining (t : Tty (SRingBuffer UInt8)) : List UInt8 :=
  (if t.wState.cr then [LF] else []) ++ expand (isSet t.options OPT_CRMOD) t.wBuffer.contents

/-- The indices of the buffer are in range, there is no XON or XOFF of our own to transmit, and no
    flush is going on. -/
structure Ready (t : Tty (SRingBuffer UInt8)) : Prop where
  inRange : t.wBuffer.InRange
  pending : t.rState.pending = false
  flushing : t.wState.flushingWBuffer = false

/-- Behind `there`, the byte is handed out if the terminal is busy, and only permits change. -/
theorem transmitted_spec (c : UInt8) (ht : t.Ready) (hbusy : t.wState.busy = true) :
    (t.transmitted c).1 = .ENONE ∧ (t.transmitted c).2.1 = some c ∧
      (t.transmitted c).2.2.remaining = t.remaining ∧ (t.transmitted c).2.2.Ready ∧
      (t.transmitted c).2.2.wState.xoff = t.wState.xoff := by
  unfold transmitted
  split_ifs
  · exact ⟨rfl, rfl, rfl, ⟨ht.inRange, ht.pending, ht.flushing⟩, rfl⟩
  · exact ⟨rfl, rfl, rfl, ht, rfl⟩

/-- While the output is stopped nothing is transmitted, and otherwise the first of what remains. -/
theorem transmit_eq (ht : t.Ready) :
    (t.wState.xoff = true ∧ t.iTransmitDataOfTty.1 = .EFAULT ∧
      t.iTransmitDataOfTty.2.2.remaining = t.remaining ∨
      t.wState.xoff = false ∧ t.remaining = [] ∧ t.iTransmitDataOfTty.1 = .EFAULT ∧
      t.iTransmitDataOfTty.2.2.remaining = [] ∨
      t.wState.xoff = false ∧ ∃ c rest, t.remaining = c :: rest ∧ t.iTransmitDataOfTty.1 = .ENONE ∧
      t.iTransmitDataOfTty.2.1 = some c ∧ t.iTransmitDataOfTty.2.2.remaining = rest) ∧
    t.iTransmitDataOfTty.2.2.Ready ∧ t.iTransmitDataOfTty.2.2.wState.xoff = t.wState.xoff := by
  obtain ⟨hrange, hpending, hflushing⟩ := ht
  unfold iTransmitDataOfTty
  rw [hpending, hflushing, Bool.or_false, if_neg Bool.false_ne_true]
  cases hxoff : t.wState.xoff with
  | true =>
    rw [if_pos rfl]
    exact ⟨.inl ⟨rfl, rfl, rfl⟩, ⟨hrange, hpending, hflushing⟩, hxoff⟩
  | false =>
    rw [if_neg Bool.false_ne_true]
    cases hcr : t.wState.cr with
    | true =>
      -- The second half of a pair.
      rw [if_pos rfl]
      obtain ⟨hret, hc, hrest, hready, hxoff'⟩ := transmitted_spec
        (t := { t with wState.cr := false, wState.busy := true }) LF
        ⟨hrange, hpending, hflushing⟩ rfl
      refine ⟨.inr (.inr ⟨rfl, LF, _, ?_, hret, hc, hrest⟩), hready, hxoff'.trans hxoff⟩
      rw [remaining, hcr]
      rfl
    | false =>
      rw [if_neg Bool.false_ne_true]
      have hremaining : t.remaining = expand (isSet t.options OPT_CRMOD) t.wBuffer.contents := by
        rw [remaining, hcr]
        rfl
      rcases SRingBuffer.read_eq hrange with ⟨hnil, hread⟩ | ⟨c, cs, b, hcons, hread, hrest, hb, -⟩
      · have hread' : read t.wBuffer = (none, t.wBuffer) := hread
        have hempty : t.remaining = [] := by
          rw [hremaining, hnil]
          rfl
        rw [hread']
        exact ⟨.inr (.inl ⟨rfl, hempty, rfl, hempty⟩), ⟨hrange, hpending, hflushing⟩, hxoff⟩
      · have hread' : read t.wBuffer = (some c, b) := hread
        rw [hread', hremaining, hcons]
        dsimp only
        by_cases hpair : (isSet t.options OPT_CRMOD && c == LF) = true
        · -- The first half of a pair: the second is left for the next call.
          rw [if_pos hpair]
          obtain ⟨hret, hc, hrest', hready, hxoff'⟩ := transmitted_spec
            (t := { t with wBuffer := b, wState.busy := true, wState.cr := true }) CR
            ⟨hb, hpending, hflushing⟩ rfl
          refine ⟨.inr (.inr ⟨rfl, CR, LF :: expand (isSet t.options OPT_CRMOD) cs, ?_, hret, hc,
            hrest'.trans ?_⟩), hready, hxoff'.trans hxoff⟩
          · rw [expand, List.flatMap_cons, if_pos hpair]
            rfl
          · rw [← hrest]
            rfl
        · rw [if_neg hpair]
          obtain ⟨hret, hc, hrest', hready, hxoff'⟩ := transmitted_spec
            (t := { t with wBuffer := b, wState.busy := true }) c ⟨hb, hpending, hflushing⟩ rfl
          refine ⟨.inr (.inr ⟨rfl, c, expand (isSet t.options OPT_CRMOD) cs, ?_, hret, hc,
            hrest'.trans ?_⟩), hready, hxoff'.trans hxoff⟩
          · rw [expand, List.flatMap_cons, if_neg hpair]
            rfl
          · rw [remaining, ← hrest]
            dsimp only
            rw [hcr]
            rfl

/-- Stopping and restarting changes nothing of what remains. -/
theorem tyWrtXoff_eq (ht : t.Ready) (xoff : Bool) :
    (t.tyWrtXoff xoff).remaining = t.remaining ∧ (t.tyWrtXoff xoff).Ready ∧
      (t.tyWrtXoff xoff).wState.xoff = xoff := by
  have hready : ∀ busy, Ready { t with wState.xoff := xoff, wState.busy := busy } :=
    fun _ => ⟨ht.inRange, ht.pending, ht.flushing⟩
  unfold tyWrtXoff
  split_ifs with h
  · dsimp only
    split_ifs
    · exact ⟨rfl, hready true, rfl⟩
    · exact ⟨rfl, hready t.wState.busy, rfl⟩
  · exact ⟨rfl, ht, not_not.1 h⟩

/-- A call moves a byte from what remains to what is emitted, if any. -/
theorem emitted_step {op : TxCall} (hl : l.tty.Ready) (h : l.step op = some l') :
    l'.tty.Ready ∧ l'.emitted ++ l'.tty.remaining = l.emitted ++ l.tty.remaining := by
  cases op with
  | transmit =>
    obtain ⟨hcases, hready, -⟩ := transmit_eq hl
    simp only [Line.step, Option.some.injEq] at h
    subst h
    refine ⟨hready, ?_⟩
    rcases hcases with ⟨-, hret, hrest⟩ | ⟨-, hnil, hret, hrest⟩ | ⟨-, c, rest, hcons,
      hret, hc, hrest⟩
    · simp [hret, hrest]
    · simp [hret, hrest, hnil]
    · simp [hret, hrest, hc, hcons]
  | wrtXoff xoff =>
    obtain ⟨hrest, hready, -⟩ := tyWrtXoff_eq hl xoff
    obtain rfl := Option.some.inj h
    exact ⟨hready, congrArg (l.emitted ++ ·) hrest⟩

theorem emitted_run (hl : l.tty.Ready) (hrun : Run Line.step (fun _ _ => True) l l') :
    l'.tty.Ready ∧ l'.emitted ++ l'.tty.remaining = l.emitted ++ l.tty.remaining := by
  refine hrun.invariant (I := fun l' => l'.tty.Ready ∧
    l'.emitted ++ l'.tty.remaining = l.emitted ++ l.tty.remaining) (fun hs _ hstep => ?_) ⟨hl, rfl⟩
  obtain ⟨hready, heq⟩ := emitted_step hs.1 hstep
  exact ⟨hready, heq.trans hs.2⟩

/-- If the output is not stopped, calls that all succeed emit what remains. -/
theorem emit_all (hl : l.tty.Ready) (hxoff : l.tty.wState.xoff = false) :
    ∃ l', Run Line.step (fun l op => op = .transmit ∧ l.tty.iTransmitDataOfTty.1 = .ENONE) l l' ∧
      l'.emitted = l.emitted ++ l.tty.remaining ∧ l'.tty.remaining = [] ∧
        l'.tty.iTransmitDataOfTty.1 = .EFAULT := by
  generalize hn : l.tty.remaining = bytes
  -- By induction on what is left to send, one byte for each interrupt.
  induction bytes generalizing l with
  | nil =>
    refine ⟨l, .refl, (List.append_nil _).symm, hn, ?_⟩
    rcases (transmit_eq hl).1 with ⟨hon, -⟩ | ⟨-, -, hret, -⟩ | ⟨-, c, rest, hcons, -⟩
    · rw [hxoff] at hon
      cases hon
    · exact hret
    · rw [hn] at hcons
      cases hcons
  | cons c bytes ih =>
    obtain ⟨hcases, hready, hxoff'⟩ := transmit_eq hl
    rcases hcases with ⟨hon, -⟩ | ⟨-, hnil, -⟩ | ⟨-, c', rest, hcons, hret, hc, hrest⟩
    · rw [hxoff] at hon
      cases hon
    · rw [hn] at hnil
      cases hnil
    · rw [hn] at hcons
      obtain ⟨rfl, rfl⟩ := List.cons.inj hcons
      have hstep : l.step .transmit = some ⟨l.tty.iTransmitDataOfTty.2.2, l.emitted ++ [c]⟩ := by
        simp [Line.step, hret, hc]
      obtain ⟨l', hrun, hemitted, hlast⟩ :=
        ih (l := ⟨l.tty.iTransmitDataOfTty.2.2, l.emitted ++ [c]⟩)
        hready (hxoff'.trans hxoff) hrest
      refine ⟨l', (Run.refl.tail ⟨rfl, hret⟩ hstep).trans hrun, ?_, hlast⟩
      rw [hemitted, List.append_assoc]
      rfl

/-- The bytes emitted are the first of what there was to transmit, and the rest of it remains;
    unless the output is stopped, calls that succeed go on to emit all of it. -/
theorem emits (ht : t.Ready) (hrun : Run Line.step (fun _ _ => True) ⟨t, []⟩ l) :
    l.emitted ++ l.tty.remaining = t.remaining ∧
      (l.tty.wState.xoff = false → ∃ l',
        Run Line.step (fun l op => op = .transmit ∧ l.tty.iTransmitDataOfTty.1 = .ENONE) l l' ∧
          l'.emitted = t.remaining ∧ l'.tty.iTransmitDataOfTty.1 = .EFAULT) := by
  obtain ⟨hready, heq⟩ := emitted_run ht hrun
  refine ⟨heq, fun hxoff => ?_⟩
  obtain ⟨l', hrun', hemitted, -, hlast⟩ := emit_all hready hxoff
  exact ⟨l', hrun', hemitted.trans heq, hlast⟩

/-- A newline, with the output stopped and restarted between the two halves of the pair. -/
theorem emits_newline : ∃ l : Line, l.emitted ++ l.tty.remaining = [CR, LF] ∧
    l.tty.wState.xoff = false ∧ l.emitted.length = 2 := by
  have ht : Ready { blank ⟨7, 0, 8, fun _ => LF⟩ with options := 2, wrtThreshold := 20 } :=
    ⟨⟨by decide, by decide, by decide, by decide, by decide⟩, rfl, rfl⟩
  obtain ⟨l, hrun, hl⟩ := Run.exists_of_execute (σ := Line) (P := fun _ _ => True)
    (f := fun l => (l.tty.wState.xoff, l.emitted.length)) (x := (false, 2))
    (rfl : (execute Line.step (fun _ _ => True)
      ⟨{ blank ⟨7, 0, 8, fun _ => LF⟩ with options := 2, wrtThreshold := 20 }, []⟩
      [.transmit, .wrtXoff true, .wrtXoff false, .transmit]).map _ = _)
  obtain ⟨hxoff, hlength⟩ := Prod.ext_iff.1 hl
  exact ⟨l, (emits ht hrun).1.trans (by decide), hxoff, hlength⟩

/-- With the first half of a pair handed out, the second comes before the bytes of the buffer. -/
theorem cr_first : ∃ t : Tty (SRingBuffer UInt8), t.Ready ∧ t.wBuffer.contents = [] ∧
    t.iTransmitDataOfTty.1 = .ENONE ∧ t.iTransmitDataOfTty.2.1 = some LF ∧
      ¬ [LF] <+: expand (isSet t.options OPT_CRMOD) t.wBuffer.contents :=
  ⟨{ blank ⟨0, 0, 8, fun _ => 0⟩ with wState := ⟨false, true, false, true, false⟩, options := 2 },
    ⟨⟨by decide, by decide, by decide, by decide, by decide⟩, rfl, rfl⟩, rfl, by decide, by decide,
    by decide⟩

end Tty

end DemoOs
