import DemoOs.Tty.Tty
import DemoOs.Lib.BoundedQueue
import DemoOs.Lib.Run

/-!
# Line discipline

With `OPT_LINE`, characters received are edited into lines (`Edited.press`), and the completed lines
are for the readers. The terminal keeps them, and the line begun, in one buffer, taken here as a
bounded queue (`Fifo`), with a counter for the line begun, which is shared with the readers and is
rarely what its name says: `writeOut` sets it.

* Erasing counts down, and leaves the characters in the buffer.
* A reader takes as many bytes as it asks for, or as the counter says, those of the line begun
  included.
* A character is taken if there is room for it and for the line the counter counts.

Where none of these goes wrong (`Fits`), what is delivered are the completed lines, in order, and
the buffer holds the rest of them, behind which is the line begun (`Awaits`, `awaits_step`). The
readers are woken until they have got all (`exists_deliver`, `delivers`).
-/

namespace DemoOs

/-- A queue of up to `capacity` characters. -/
structure Fifo where
  capacity : ℕ
  items : List UInt8
  length_le : items.length ≤ capacity

namespace Fifo

variable (q : Fifo)

def empty (capacity : ℕ) : Fifo := ⟨capacity, [], Nat.zero_le capacity⟩

def put (cs : List UInt8) : Fifo :=
  { q with items := BoundedQueue.put q.capacity q.items cs
           length_le := BoundedQueue.length_put_le q.length_le }

def drop (n : ℕ) : Fifo :=
  { q with items := q.items.drop n
           length_le := List.length_drop.trans_le ((Nat.sub_le _ n).trans q.length_le) }

instance instCharBuffer : CharBuffer Fifo where
  isEmpty q := q.items.isEmpty
  length q := q.items.length
  freeSpace q := q.capacity - q.items.length
  write q c := (q.items.length < q.capacity, q.put [c])
  writen q cs := ((min cs.length (q.capacity - q.items.length) : ℕ), q.put cs)
  read q := (q.items.head?, q.drop 1)
  readn q n := some (q.items.take n.toNat, q.drop n.toNat)
  reset q := q.drop q.items.length
  capacity q := q.capacity

variable {q : Fifo}

theorem put_items (cs : List UInt8) :
    (q.put cs).items = BoundedQueue.put q.capacity q.items cs := rfl

theorem freeSpace_eq : CharBuffer.freeSpace q = q.capacity - q.items.length := rfl

theorem isEmpty_iff : CharBuffer.isEmpty q = true ↔ q.items = [] := List.isEmpty_iff

end Fifo

/-! ## Editing -/

/-- What a character is for the line. -/
inductive Key
  | erase
  | kill
  | eof
  | char (c : UInt8)

/-- The lines completed, one after the other, and the line begun. -/
structure Edited where
  completed : List UInt8
  unfinished : List UInt8

/-- The meaning of a key. -/
def Edited.press (e : Edited) : Key → Edited
  | .erase => { e with unfinished := e.unfinished.dropLast }
  | .kill => { e with unfinished := [] }
  | .eof => ⟨e.completed ++ e.unfinished, []⟩
  | .char c =>
    if c = Tty.LF then ⟨e.completed ++ (e.unfinished ++ [c]), []⟩
    else { e with unfinished := e.unfinished ++ [c] }

namespace Tty

open OptionFlags CtrlCharIndex CharBuffer

section

variable {B : Type} (t : Tty B)

/-- A character received, without its eighth bit under `OPT_7_BIT`. -/
def masked (inChar : UInt8) : UInt8 :=
  if isSet t.options OPT_7_BIT then inChar &&& 0x7f else inChar

/-- A character received, as the editing gets it. -/
def typed (inChar : UInt8) : UInt8 :=
  if isSet t.options OPT_CRMOD && t.masked inChar == CR then LF else t.masked inChar

def key (c : UInt8) : Key :=
  if c = 127 ∨ c = t.ctrlChars VERASE then .erase
  else if c = t.ctrlChars VKILL then .kill
  else if c = t.ctrlChars VEOF then .eof
  else .char c

/-- With `OPT_LINE` and without the options that do more with characters received, the terminal
    being in use. -/
structure Editing (t : Tty B) : Prop where
  line : isSet t.options OPT_LINE = true
  echo : isSet t.options OPT_ECHO = false
  tandem : isSet t.options OPT_TANDEM = false
  abort : isSet t.options OPT_ABORT = false
  monTrap : isSet t.options OPT_MON_TRAP = false
  hook : (t.protoHookFunc.any fun hook => hook t.protoArg = 0) = false
  canceled : t.rState.canceled = false
  flushing : t.rState.flushingRBuffer = false

/-- The bytes that `writeOut` asks the buffer for. -/
def asked (maxByteSize : ℕ) : ℕ :=
  min (if t.bytesInUnfinishedLine = 0 then u16 maxByteSize else t.bytesInUnfinishedLine) maxByteSize

end

/-- There is room for a character, and for the line that is counted. A newline only needs two slots
    if the count is not zero. -/
def Room {B : Type} [CharBuffer B] (t : Tty B) (c : UInt8) : Prop :=
  freeSpace t.rBuffer ≥ t.bytesInUnfinishedLine + 3 ∧ t.bytesInUnfinishedLine < MaxCanOn - 1 ∨
    c = LF ∧ freeSpace t.rBuffer ≥ 2 ∧ t.bytesInUnfinishedLine ≠ 0

end Tty

/-- A terminal, with the characters it has received as edited, and the bytes its readers have
    got. -/
structure Terminal where
  tty : Tty Fifo
  edited : Edited
  delivered : List UInt8

/-- The calls of the device and the readers. -/
inductive LineCall
  | receive (inChar : UInt8)
  | enterWriteOut
  | writeOut (maxByteSize : ℕ)

namespace Terminal

open CharBuffer Tty OptionFlags

def step (s : Terminal) : LineCall → Option Terminal
  | .receive inChar => (s.tty.iSendDataToTty inChar).map fun (_, tty) =>
    { s with tty, edited := s.edited.press (s.tty.key (s.tty.typed inChar)) }
  | .enterWriteOut => s.tty.enterWriteOut.map fun tty => { s with tty }
  | .writeOut maxByteSize => (s.tty.writeOut maxByteSize).map fun (bytes, tty) =>
    { s with tty, delivered := s.delivered ++ bytes }

/-- The key does to the buffer what it means. -/
def FitsKey (s : Terminal) : Key → Prop
  | .erase | .kill => s.edited.unfinished = []
  | .eof => 0 < freeSpace s.tty.rBuffer ∨ s.edited.unfinished = []
  | .char c => s.tty.Room c

/-- There is room for what is received, nothing is erased, and no reader asks for bytes of the line
    begun. -/
def Fits (s : Terminal) : LineCall → Prop
  | .receive inChar => ¬ (isSet s.tty.options OPT_CRMOD ∧ s.tty.masked inChar = 0) ∧
    s.FitsKey (s.tty.key (s.tty.typed inChar))
  | .enterWriteOut => True
  | .writeOut maxByteSize => s.edited.unfinished = [] ∨
    s.tty.asked maxByteSize ≤ s.edited.completed.length - s.delivered.length

instance instDecidableFitsKey (s : Terminal) : ∀ k, Decidable (s.FitsKey k)
  | .erase | .kill => inferInstanceAs (Decidable (_ = _))
  | .eof => inferInstanceAs (Decidable (_ ∨ _))
  | .char _ => inferInstanceAs (Decidable (_ ∧ _ ∨ _))

instance instDecidableFits : ∀ (s : Terminal) (e : LineCall), Decidable (s.Fits e)
  | _, .receive _ => inferInstanceAs (Decidable (_ ∧ _))
  | _, .enterWriteOut => inferInstanceAs (Decidable True)
  | _, .writeOut _ => inferInstanceAs (Decidable (_ ∨ _))

/-- Of the completed lines, `rest` is to be delivered. It is in the buffer, before the line begun,
    and a reader is in or let in. -/
structure Awaits (s : Terminal) (rest : List UInt8) : Prop where
  editing : s.tty.Editing
  completed : s.edited.completed = s.delivered ++ rest
  items : s.tty.rBuffer.items = rest ++ s.edited.unfinished
  served : rest ≠ [] → 0 < s.tty.rSem + s.tty.readers

end Terminal

/-! ## Receiving -/

namespace Tty

open OptionFlags CtrlCharIndex CharBuffer

variable {t u : Tty Fifo} {c : UInt8}

theorem Editing.congr (ht : t.Editing) (hoptions : u.options = t.options)
    (hhook : u.protoHookFunc = t.protoHookFunc) (harg : u.protoArg = t.protoArg)
    (hstate : u.rState = t.rState) : u.Editing := by
  obtain ⟨hline, hecho, htandem, habort, hmonTrap, hprotoHook, hcanceled, hflushing⟩ := ht
  rw [← hoptions] at hline hecho htandem habort hmonTrap
  rw [← hhook, ← harg] at hprotoHook
  rw [← hstate] at hcanceled hflushing
  exact ⟨hline, hecho, htandem, habort, hmonTrap, hprotoHook, hcanceled, hflushing⟩

/-- With these options, the editing is all there is. -/
theorem Editing.receive_eq {ret : ErrNo} {releaseTask erased : Bool} (ht : t.Editing)
    (hu : u.Editing) (hc : ¬ (isSet t.options OPT_CRMOD ∧ t.masked c = 0))
    (h : t.receiveLine (t.typed c) = (ret, releaseTask, erased, u)) :
    t.iSendDataToTty c = some (ret, if releaseTask then { u with rSem := u.rSem + 1 } else u) := by
  have hfinish : u.finish ret releaseTask erased (t.typed c) =
      (ret, if releaseTask then { u with rSem := u.rSem + 1 } else u) := by
    have hecho : u.echoBack ret (t.typed c) erased = (ret, u) := by
      rw [echoBack, hu.echo]
      rfl
    have htandem : u.tandem ret releaseTask = (ret, releaseTask, u) := by
      rw [Tty.tandem, hu.tandem]
      rfl
    rw [finish, hecho]
    simp only [htandem]
  have hreceive : t.receive (t.masked c) = u.finish ret releaseTask erased (t.typed c) := by
    rw [receive]
    simp only [ht.line, if_true]
    rw [← typed, h]
  rw [iSendDataToTty, ht.hook, if_neg Bool.false_ne_true]
  simp only [ht.flushing, ht.abort, ht.monTrap, ht.tandem, ht.line, Bool.false_eq_true, false_and,
    and_false, if_false, true_and]
  rw [← masked, if_neg hc, hreceive, hfinish]

/-- A key releases a reader if it completes a line. -/
def releases (t : Tty Fifo) : Key → Bool
  | .erase | .kill => false
  | .eof => decide (freeSpace t.rBuffer > 0)
  | .char c => c == LF

/-- The buffer with what a key writes. -/
def buffered (t : Tty Fifo) : Key → Fifo
  | .char c => t.rBuffer.put [c]
  | _ => t.rBuffer

/-- The characters that are not for editing are written if there is room. -/
theorem insert_eq (hroom : t.Room c) : freeSpace t.rBuffer ≥ 2 ∧ ∃ ret n,
    t.insert c = (ret, { t with bytesInUnfinishedLine := n, rBuffer := t.rBuffer.put [c] }) := by
  have hwrite : (write t.rBuffer c).2 = t.rBuffer.put [c] := rfl
  by_cases htaken : freeSpace t.rBuffer ≥ t.bytesInUnfinishedLine + 3 ∧
      t.bytesInUnfinishedLine < MaxCanOn - 1
  · refine ⟨by omega, .ENONE, u16 (t.bytesInUnfinishedLine + 1), ?_⟩
    simp only [insert, if_pos htaken, hwrite]
  · obtain ⟨hLF, hfree, hcount⟩ := hroom.resolve_left htaken
    refine ⟨hfree, .EFAULT, u16 (t.bytesInUnfinishedLine + 1), ?_⟩
    simp only [insert, if_neg htaken, if_pos hLF, if_pos hcount, hwrite]

/-- What a key does: whether it has an error, whether it has erased and what it counts are of no
    matter for the buffer. -/
theorem receiveLine_eq (hroom : ∀ d, t.key c = .char d → t.Room d) : ∃ ret erased n,
    t.receiveLine c = (ret, t.releases (t.key c), erased,
      { t with bytesInUnfinishedLine := n, rBuffer := t.buffered (t.key c) }) := by
  rw [receiveLine, edit]
  unfold key at hroom ⊢
  by_cases herase : c = 127 ∨ c = t.ctrlChars VERASE
  · simp only [if_pos herase]
    split_ifs <;> exact ⟨_, _, _, rfl⟩
  by_cases hkill : c = t.ctrlChars VKILL
  · simp only [if_neg herase, if_pos hkill]
    split_ifs <;> exact ⟨_, _, _, rfl⟩
  by_cases heof : c = t.ctrlChars VEOF
  · simp only [if_neg herase, if_neg hkill, if_pos heof, releases]
    split_ifs with hfree
    · exact ⟨.ENONE, false, 0, rfl⟩
    · exact ⟨.ENONE, false, _, rfl⟩
  · simp only [if_neg herase, if_neg hkill, if_neg heof] at hroom ⊢
    obtain ⟨hfree, ret, n, hinsert⟩ := insert_eq (hroom c rfl)
    simp only [if_pos hfree, hinsert, releases]
    split_ifs <;> exact ⟨_, _, _, rfl⟩

/-- A character received writes what its key writes, and lets a reader in if the key does. -/
theorem Editing.receive_key (ht : t.Editing) (hc : ¬ (isSet t.options OPT_CRMOD ∧ t.masked c = 0))
    (hroom : ∀ d, t.key (t.typed c) = .char d → t.Room d) : ∃ ret u,
    t.iSendDataToTty c = some (ret, u) ∧ u.Editing ∧
      u.rBuffer = t.buffered (t.key (t.typed c)) ∧
      u.rSem = t.rSem + (if t.releases (t.key (t.typed c)) then 1 else 0) ∧
        u.readers = t.readers := by
  obtain ⟨ret, erased, n, hline⟩ := receiveLine_eq hroom
  have hu :
      Editing { t with bytesInUnfinishedLine := n, rBuffer := t.buffered (t.key (t.typed c)) } :=
    ht.congr rfl rfl rfl rfl
  refine ⟨ret, _, ht.receive_eq hu hc hline, ?_⟩
  split_ifs
  · exact ⟨ht.congr rfl rfl rfl rfl, rfl, rfl, rfl⟩
  · exact ⟨hu, rfl, rfl, rfl⟩

theorem Editing.takeBytes_eq (ht : t.Editing) (maxByteSize : ℕ) : ∃ n,
    t.takeBytes maxByteSize = some (t.rBuffer.items.take (t.asked maxByteSize),
      { t with rBuffer := t.rBuffer.drop (t.asked maxByteSize), bytesInUnfinishedLine := n }) := by
  rw [takeBytes, if_pos ht.line]
  exact ⟨_, rfl⟩

/-- Behind the reading, another reader is let in if there is more. -/
theorem Editing.afterTaken_eq (ht : t.Editing) : t.afterTaken.Editing ∧
    t.afterTaken.rBuffer = t.rBuffer ∧ (t.rBuffer.items ≠ [] → 0 < t.afterTaken.rSem) := by
  rw [afterTaken, ht.tandem]
  simp only [Bool.false_and, Bool.false_eq_true, if_false]
  split_ifs with hmore
  · exact ⟨ht.congr rfl rfl rfl rfl, rfl, fun _ => Nat.succ_pos _⟩
  · refine ⟨ht, rfl, fun hne => absurd (Fifo.isEmpty_iff.1 ?_) hne⟩
    simpa using hmore

/-- A reader that has got in gets the first bytes of the buffer, as many as it asks for, and lets
    another one in if there are more. -/
theorem Editing.writeOut_eq (ht : t.Editing) (maxByteSize : ℕ) (hreaders : 0 < t.readers)
    (hitems : t.rBuffer.items ≠ []) : ∃ u,
    t.writeOut maxByteSize = some (t.rBuffer.items.take (t.asked maxByteSize), u) ∧ u.Editing ∧
      u.rBuffer.items = t.rBuffer.items.drop (t.asked maxByteSize) ∧
      (u.rBuffer.items ≠ [] → 0 < u.rSem) := by
  rw [writeOut, if_neg hreaders.ne', ht.canceled, if_neg Bool.false_ne_true,
    if_neg (mt Fifo.isEmpty_iff.1 hitems)]
  have hin : Editing { t with readers := t.readers - 1 } := ht.congr rfl rfl rfl rfl
  obtain ⟨n, htake⟩ := hin.takeBytes_eq maxByteSize
  rw [htake]
  refine ⟨_, rfl, ?_⟩
  have hu : Editing { t with
      readers := t.readers - 1
      rBuffer := t.rBuffer.drop (t.asked maxByteSize)
      bytesInUnfinishedLine := n } := ht.congr rfl rfl rfl rfl
  obtain ⟨hediting, hbuffer, hrSem⟩ := hu.afterTaken_eq
  exact ⟨hediting, congrArg Fifo.items hbuffer, fun hmore => hrSem (hbuffer ▸ hmore)⟩

end Tty

/-! ## Runs -/

namespace Terminal

open CharBuffer Tty OptionFlags

variable {s s' : Terminal} {rest : List UInt8}

/-- A key does to the buffer what it does to the lines. -/
theorem Awaits.press {k : Key} {u : Tty Fifo} (hs : s.Awaits rest) (hkey : s.FitsKey k)
    (hu : u.Editing) (hbuffer : u.rBuffer = s.tty.buffered k)
    (hrSem : u.rSem = s.tty.rSem + if s.tty.releases k then 1 else 0)
    (hreaders : u.readers = s.tty.readers) :
    ∃ rest', Awaits { s with tty := u, edited := s.edited.press k } rest' := by
  obtain ⟨-, hcompleted, hitems, hserved⟩ := hs
  have hstill : rest ≠ [] → 0 < u.rSem + u.readers := by
    intro hrest
    have hpos := hserved hrest
    omega
  -- What the reader may still take grows only when a line is complete.
  cases k with
  | erase =>
    refine ⟨rest, hu, hcompleted, ?_, hstill⟩
    have hnone : s.edited.unfinished = [] := hkey
    rw [hnone] at hitems
    rw [hbuffer, Edited.press, hnone]
    exact hitems
  | kill =>
    refine ⟨rest, hu, hcompleted, ?_, hstill⟩
    have hnone : s.edited.unfinished = [] := hkey
    rw [hnone] at hitems
    rw [hbuffer, Edited.press]
    exact hitems
  | eof =>
    refine ⟨rest ++ s.edited.unfinished, hu, ?_, ?_, fun hrest => ?_⟩
    · rw [Edited.press, hcompleted, List.append_assoc]
    · rw [hbuffer, Edited.press, List.append_nil]
      exact hitems
    · rcases hkey with hfree | hnone
      · rw [releases, if_pos (decide_eq_true hfree)] at hrSem
        dsimp only
        omega
      · rw [hnone, List.append_nil] at hrest
        exact hstill hrest
  | char d =>
    have hfits : s.tty.rBuffer.items.length + [d].length ≤ s.tty.rBuffer.capacity := by
      have hfree := (insert_eq hkey).1
      rw [Fifo.freeSpace_eq] at hfree
      rw [List.length_singleton]
      omega
    have hput : u.rBuffer.items = rest ++ (s.edited.unfinished ++ [d]) := by
      rw [hbuffer, buffered, Fifo.put_items, BoundedQueue.put_of_fits hfits, hitems,
        List.append_assoc]
    -- A line feed completes the line, and gives a permit for it.
    by_cases hLF : d = LF
    · refine ⟨rest ++ (s.edited.unfinished ++ [d]), hu, ?_, ?_, fun _ => ?_⟩
      · rw [Edited.press, if_pos hLF, hcompleted, List.append_assoc]
      · rw [Edited.press, if_pos hLF, List.append_nil]
        exact hput
      · rw [releases, if_pos (beq_iff_eq.2 hLF)] at hrSem
        dsimp only
        omega
    · refine ⟨rest, hu, ?_, ?_, hstill⟩
      · rw [Edited.press, if_neg hLF]
        exact hcompleted
      · rw [Edited.press, if_neg hLF]
        exact hput

theorem awaits_receive {c : UInt8} (hs : s.Awaits rest) (hfits : s.Fits (.receive c))
    (h : s.step (.receive c) = some s') : ∃ rest', s'.Awaits rest' := by
  obtain ⟨hc, hkey⟩ := hfits
  obtain ⟨ret, u, hsend, hu, hbuffer, hrSem, hreaders⟩ := hs.editing.receive_key hc fun d hd => by
    rw [hd] at hkey
    exact hkey
  rw [step, hsend] at h
  obtain rfl := Option.some.inj h
  exact hs.press hkey hu hbuffer hrSem hreaders

/-- A reader gets the first bytes of the completed lines. -/
theorem Awaits.writeOut {n : ℕ} (hs : s.Awaits rest) (hfits : s.Fits (.writeOut n))
    (hreaders : 0 < s.tty.readers) (hitems : s.tty.rBuffer.items ≠ []) : ∃ u,
    s.step (.writeOut n) =
      some { s with tty := u, delivered := s.delivered ++ rest.take (s.tty.asked n) } ∧
    Awaits { s with tty := u, delivered := s.delivered ++ rest.take (s.tty.asked n) }
      (rest.drop (s.tty.asked n)) := by
  obtain ⟨u, hwrite, hu, hbuffer, hrSem⟩ := hs.editing.writeOut_eq n hreaders hitems
  obtain ⟨-, hcompleted, hitems, -⟩ := hs
  have hsplit : (rest ++ s.edited.unfinished).take (s.tty.asked n) = rest.take (s.tty.asked n) ∧
      (rest ++ s.edited.unfinished).drop (s.tty.asked n) =
        rest.drop (s.tty.asked n) ++ s.edited.unfinished := by
    rcases hfits with hnone | hasked
    · rw [hnone, List.append_nil, List.append_nil]
      exact ⟨rfl, rfl⟩
    · rw [hcompleted, List.length_append, Nat.add_sub_cancel_left] at hasked
      exact ⟨List.take_append_of_le_length hasked, List.drop_append_of_le_length hasked⟩
  rw [hitems, hsplit.1] at hwrite
  rw [hitems, hsplit.2] at hbuffer
  refine ⟨u, ?_, hu, ?_, hbuffer, fun hrest => ?_⟩
  · rw [step, hwrite]
    rfl
  · rw [List.append_assoc, List.take_append_drop]
    exact hcompleted
  · refine Nat.add_pos_left (hrSem ?_) _
    rw [hbuffer]
    exact List.append_ne_nil_of_left_ne_nil hrest _

/-- A reader that gets in takes the permit. -/
theorem Awaits.enterWriteOut (hs : s.Awaits rest) (hpermit : 0 < s.tty.rSem) : ∃ u,
    s.step .enterWriteOut = some { s with tty := u } ∧ Awaits { s with tty := u } rest ∧
      0 < u.readers := by
  obtain ⟨he, hcompleted, hitems, -⟩ := hs
  refine ⟨{ s.tty with rSem := s.tty.rSem - 1, readers := s.tty.readers + 1 }, ?_,
    ⟨he.congr rfl rfl rfl rfl, hcompleted, hitems, fun _ => ?_⟩, Nat.succ_pos _⟩
  · rw [step, Tty.enterWriteOut, if_neg hpermit.ne']
    rfl
  · exact Nat.add_pos_right _ (Nat.succ_pos _)

theorem awaits_step {e : LineCall} (hs : s.Awaits rest) (hfits : s.Fits e)
    (h : s.step e = some s') : ∃ rest', s'.Awaits rest' := by
  cases e with
  | receive c => exact awaits_receive hs hfits h
  | enterWriteOut =>
    have hpermit : 0 < s.tty.rSem := by
      by_contra hnone
      rw [step, Tty.enterWriteOut, if_pos (by omega)] at h
      cases h
    obtain ⟨u, hstep, hu, -⟩ := hs.enterWriteOut hpermit
    obtain rfl := Option.some.inj (hstep.symm.trans h)
    exact ⟨rest, hu⟩
  | writeOut n =>
    have hreaders : 0 < s.tty.readers := by
      by_contra hnone
      rw [step, Tty.writeOut, if_pos (by omega)] at h
      cases h
    have hitems : s.tty.rBuffer.items ≠ [] := by
      intro hnone
      rw [step, Tty.writeOut, if_neg hreaders.ne', hs.editing.canceled, if_neg Bool.false_ne_true,
        if_pos (Fifo.isEmpty_iff.2 hnone)] at h
      cases h
    obtain ⟨u, hstep, hu⟩ := hs.writeOut hfits hreaders hitems
    obtain rfl := Option.some.inj (hstep.symm.trans h)
    exact ⟨_, hu⟩

/-- The readers alone, each asking for a byte at a time, get what is left of the completed lines. -/
theorem exists_deliver (hs : s.Awaits rest) : ∃ s',
    Run step (fun s e => s.Fits e ∧ ∀ c, e ≠ .receive c) s s' ∧ s'.edited = s.edited ∧
      s'.delivered = s.edited.completed := by
  -- By induction on what is left to read: a reader takes one byte at a time.
  induction rest generalizing s with
  | nil => exact ⟨s, .refl, rfl, by rw [hs.completed, List.append_nil]⟩
  | cons b rest ih =>
    obtain ⟨u, hrun, hu, hreaders⟩ : ∃ u,
        Run step (fun s e => s.Fits e ∧ ∀ c, e ≠ .receive c) s { s with tty := u } ∧
          Awaits { s with tty := u } (b :: rest) ∧ 0 < u.readers := by
      -- The semaphore lets one in if nobody is in yet.
      by_cases hin : 0 < s.tty.readers
      · exact ⟨s.tty, .refl, hs, hin⟩
      · have hserved := hs.served (List.cons_ne_nil b rest)
        obtain ⟨u, hstep, hu, hreaders⟩ := hs.enterWriteOut (by omega)
        exact ⟨u, .tail (i := .enterWriteOut) .refl ⟨trivial, fun _ => LineCall.noConfusion⟩ hstep,
          hu, hreaders⟩
    have hasked : u.asked 1 = 1 := by
      rw [asked]
      split_ifs with hzero
      · rfl
      · omega
    have hfits : Fits { s with tty := u } (.writeOut 1) := by
      refine .inr ?_
      have hlength := congrArg List.length hu.completed
      simp only [List.length_append, List.length_cons] at hlength
      dsimp only
      omega
    have hitems : u.rBuffer.items ≠ [] := by
      have hitems := hu.items
      dsimp only at hitems
      rw [hitems]
      exact List.cons_ne_nil _ _
    obtain ⟨v, hstep, hv⟩ := hu.writeOut hfits hreaders hitems
    simp only [hasked, List.drop_succ_cons, List.drop_zero] at hstep hv
    obtain ⟨s', hrest, hedited, hdelivered⟩ := ih hv
    refine ⟨s', (hrun.tail ⟨hfits, fun _ => LineCall.noConfusion⟩ hstep).trans hrest,
      hedited, hdelivered⟩

/-- A terminal that is to edit lines, with nothing in its read buffer. -/
structure Start (s : Terminal) : Prop where
  editing : s.tty.Editing
  items : s.tty.rBuffer.items = []
  edited : s.edited = ⟨[], []⟩
  delivered : s.delivered = []

/-- As long as what happens fits, what is delivered is a prefix of the completed lines, and the
    readers can get the rest. -/
theorem delivers (hs : s.Start) (hrun : Run step Fits s s') :
    (∃ rest, s'.Awaits rest) ∧ s'.delivered <+: s'.edited.completed ∧ ∃ s'',
      Run step (fun s e => s.Fits e ∧ ∀ c, e ≠ .receive c) s' s'' ∧ s''.edited = s'.edited ∧
        s''.delivered = s'.edited.completed := by
  obtain ⟨rest, hrest⟩ : ∃ rest, s'.Awaits rest := by
    refine hrun.invariant (I := fun s => ∃ rest, s.Awaits rest) ?_ ⟨[], ?_⟩
    · rintro s e s' ⟨rest, hs⟩ hfits hstep
      exact awaits_step hs hfits hstep
    · exact ⟨hs.editing, by rw [hs.edited, hs.delivered]; rfl, by rw [hs.items, hs.edited]; rfl,
        fun hnil => absurd rfl hnil⟩
  exact ⟨⟨rest, hrest⟩, ⟨rest, hrest.completed.symm⟩, exists_deliver hrest⟩

/-- A terminal with `OPT_LINE`. -/
def console : Terminal where
  tty := ((blank (.empty 16)).init 16 (.empty 16) (.empty 16)).fioSetOptions 0x40
  edited := ⟨[], []⟩
  delivered := []

theorem start_console : console.Start :=
  ⟨⟨rfl, rfl, rfl, rfl, rfl, rfl, rfl, rfl⟩, rfl, rfl, rfl⟩

/-- A line read while the next one is begun. -/
theorem delivers_line : ∃ s' : Terminal, s'.delivered = [0x61, LF] ∧
    s'.edited.completed = [0x61, LF] ∧ s'.delivered <+: s'.edited.completed := by
  have hlines :
      (execute step Fits console [.receive 0x61, .receive LF, .receive 0x62, .enterWriteOut,
      .writeOut 2, .enterWriteOut, .writeOut 1]).map (fun s => (s.delivered, s.edited.completed)) =
        some ([0x61, LF], [0x61, LF]) := by decide +kernel
  obtain ⟨s', hrun, hlines⟩ := Run.exists_of_execute hlines
  exact ⟨s', congrArg Prod.fst hlines, congrArg Prod.snd hlines, (delivers start_console hrun).2.1⟩

/-- The last character of a line is erased, and delivered with the line. -/
theorem erased_delivered : ∃ s', Run step (fun _ _ => True) console s' ∧
    s'.delivered = [0x61, 0x62, LF] ∧ s'.edited.completed = [0x61, LF] ∧
    ¬ s'.delivered <+: s'.edited.completed := by
  have hlines :
      (execute step (fun _ _ => True) console [.receive 0x61, .receive 0x62, .receive 0x08,
      .receive LF, .enterWriteOut, .writeOut 10]).map (fun s => (s.delivered, s.edited.completed)) =
        some ([0x61, 0x62, LF], [0x61, LF]) := by decide +kernel
  obtain ⟨s', hrun, hlines⟩ := Run.exists_of_execute hlines
  obtain ⟨hdelivered, hcompleted⟩ := Prod.ext_iff.1 hlines
  refine ⟨s', hrun, hdelivered, hcompleted, fun hprefix => ?_⟩
  dsimp only at hdelivered hcompleted
  rw [hdelivered, hcompleted] at hprefix
  exact absurd hprefix (by decide)

end Terminal

end DemoOs
