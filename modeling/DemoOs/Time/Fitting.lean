import DemoOs.Time.FieldText

/-!
# When the time is formatted as it should be

`strftime` is right for a format, a time, the size of the buffer and what the stack holds
(`Correct`) if it writes in the buffer only, and returns 0 if the text of the format does not fit,
and else its length, the text being in the buffer with a zero behind it.

A text that fits is written as it should be if there is no `%Z` in the format, no `%k` in the first
hour, and the stack happens to hold a zero behind the digits of every number (`Sound`). If it does
not fit, all is well as long as `%Z` is not reached, which does not count for the room there is
(`Reaches`). Otherwise it is not right (`strftime_iff`).
-/

namespace DemoOs

namespace Strftime

open Printk (ch lit numeral intText)

variable {E : Env} {t : Tm} {o o' : State} {c pad : UInt8} {l fmt : List UInt8} {n p g k : ℕ}
    {digits : ℤ}
  {x : Piece} {xs : List Piece} {str rest : ℕ → UInt8}

/-! ## Strings -/

/-- How many of the first `n` bytes of a string there are before the first zero. -/
def strnlen (str : ℕ → UInt8) : ℕ → ℕ
  | 0 => 0
  | n + 1 => if str 0 = 0 then 0 else strnlen (fun i => str (i + 1)) n + 1

theorem strnlen_le (str : ℕ → UInt8) (n : ℕ) : strnlen str n ≤ n := by
  induction n generalizing str with
  | zero => exact le_rfl
  | succ n ih =>
    rw [strnlen]
    split_ifs
    · exact Nat.zero_le _
    · exact Nat.succ_le_succ (ih _)

/-- Of one byte more. -/
theorem strnlen_succ (str : ℕ → UInt8) (n : ℕ) : strnlen str n = min n (strnlen str (n + 1)) := by
  induction n generalizing str with
  | zero => exact (Nat.zero_min _).symm
  | succ n ih =>
    rw [strnlen, strnlen]
    split_ifs
    · exact (Nat.min_zero _).symm
    · rw [ih, Nat.succ_min_succ]

/-- The text and what is behind it. -/
theorem strnlen_behind (hl : 0 ∉ l) (g : ℕ) :
    strnlen (behind l rest) g = min g (l.length + strnlen rest g) := by
  induction l generalizing g with
  | nil =>
    have hbehind : behind [] rest = rest := by
      funext i
      rfl
    rw [hbehind, List.length_nil, Nat.zero_add, Nat.min_eq_right (strnlen_le rest g)]
  | cons a l ih =>
    obtain ⟨ha, hl⟩ := not_or.1 (mt List.mem_cons.2 hl)
    cases g with
    | zero => exact (Nat.zero_min _).symm
    | succ g =>
      have hshift : (fun i => behind (a :: l) rest (i + 1)) = behind l rest := by
        funext i
        rw [behind, behind, List.getD_cons_succ, List.length_cons, Nat.add_sub_add_right]
      rw [strnlen, if_neg (show behind (a :: l) rest 0 ≠ 0 from fun h => ha h.symm), hshift, ih hl,
        List.length_cons]
      have hsucc := strnlen_succ rest g
      omega

/-- The first bytes of a string. -/
def firstBytes (str : ℕ → UInt8) (n : ℕ) : List UInt8 := (List.range n).map str

@[simp] theorem length_firstBytes : (firstBytes str n).length = n := by simp [firstBytes]

/-- The first byte, and the others. -/
theorem firstBytes_succ :
    firstBytes str (n + 1) = str 0 :: firstBytes (fun i => str (i + 1)) n := by
  rw [firstBytes, List.range_succ_eq_map, List.map_cons, List.map_map]
  rfl

/-- The text, and what is behind it. -/
theorem firstBytes_behind (l : List UInt8) (rest : ℕ → UInt8) (n : ℕ) :
    firstBytes (behind l rest) (l.length + n) = l ++ firstBytes rest n := by
  induction l with
  | nil =>
    rw [List.length_nil, Nat.zero_add]
    rfl
  | cons a l ih =>
    have hshift : (fun i => behind (a :: l) rest (i + 1)) = behind l rest := by
      funext i
      rw [behind, behind, List.getD_cons_succ, List.length_cons, Nat.add_sub_add_right]
    rw [List.length_cons, Nat.add_right_comm, firstBytes_succ, hshift, ih]
    rfl

/-- None of the bytes before the first zero is zero. -/
theorem zero_notMem_firstBytes (hn : n ≤ strnlen str g) : 0 ∉ firstBytes str n := by
  induction n generalizing str g with
  | zero => exact List.not_mem_nil
  | succ n ih =>
    cases g with
    | zero => exact absurd hn (by simp [strnlen])
    | succ g =>
      rw [strnlen] at hn
      split_ifs at hn with h0
      · exact absurd hn (by omega)
      · rw [firstBytes_succ, List.mem_cons, not_or]
        exact ⟨Ne.symm h0, ih (Nat.le_of_succ_le_succ hn)⟩

/-- `_add` writes a string up to its zero, or as much of it as there is room for. -/
theorem addLoop_eq (str : ℕ → UInt8) (g : ℕ) (c : Cursor UInt8) : ∃ c',
    addLoop str g c = (decide (strnlen str g < g), g - strnlen str g, c') ∧
      c.Wrote c' (firstBytes str (strnlen str g)) ∧ Cursor.Within c.pt (c.pt + g) c c' := by
  induction g generalizing str c with
  | zero => exact ⟨c, rfl, .refl c, .refl c⟩
  | succ g ih =>
    rw [addLoop, strnlen]
    split_ifs with h0
    · exact ⟨c.store
        0, by simp, (Cursor.Wrote.refl c).store 0, .store le_rfl (Nat.lt_add_of_pos_right
        g.succ_pos)⟩
    · obtain ⟨c', hc', hw, hin⟩ := ih (fun i => str (i + 1)) (c.put (str 0))
      refine ⟨c', ?_, ?_, ?_⟩
      · rw [hc', Nat.add_sub_add_right]
        simp only [Nat.add_lt_add_iff_right]
      · rw [firstBytes_succ]
        exact (Cursor.Wrote.put c (str 0)).trans hw
      · have hput : Cursor.Within c.pt (c.pt + (g + 1)) c (c.put (str 0)) :=
          .put le_rfl (Nat.lt_add_of_pos_right g.succ_pos)
        exact hput.trans (hin.mono (Nat.le_succ _) (by rw [Cursor.put_pt]; omega))

/-! ## Writing a piece -/

/-- What is behind the digits of a number, up to its zero. -/
def litter (E : Env) (g k : ℕ) : List UInt8 := firstBytes (E.stack k) (strnlen (E.stack k) g)

/-- The bytes of a piece, if there is room for them. -/
def Piece.bytes (E : Env) (g k : ℕ) : Piece → List UInt8
  | .text l => l
  | .number p n digits pad => convText p n digits pad ++ litter E g k
  | .zone => intText (E.timezone.tdiv 3600)
  | .char c => [c]
  | .room => []

/-- There is room for a piece. `%Z` is always written. -/
def Piece.Fits (E : Env) (g k : ℕ) : Piece → Prop
  | .zone => True
  | .char _ => 0 < g
  | x => (x.bytes E g k).length < g

/-- How much of the room a piece takes. -/
def Piece.cost (E : Env) (g k : ℕ) : Piece → ℕ
  | .zone => 0
  | x => (x.bytes E g k).length

/-- A number is a call of `_conv` or `_secs`. -/
def Piece.frames : Piece → ℕ
  | .number .. => 1
  | _ => 0

/-- A piece has been written, and what comes next has the rest of the room. -/
structure Written (E : Env) (x : Piece) (o o' : State) : Prop where
  wrote : o.Wrote o'.toCursor (x.bytes E o.gsize o.frames)
  gsize : o'.gsize + x.cost E o.gsize o.frames = o.gsize
  frames : o'.frames = o.frames + x.frames
  within : x ≠ .zone → Cursor.Within o.pt (o.pt + o.gsize) o.toCursor o'.toCursor

/-- There has not been room for what was to be written, and the room is used up. -/
structure Failed (o o' : State) : Prop where
  wrote : ∃ w, o.Wrote o'.toCursor w
  pt : o.pt + o.gsize ≤ o'.pt
  within : Cursor.Within o.pt (o.pt + o.gsize) o.toCursor o'.toCursor

theorem cstr_eq_behind (l : List UInt8) : cstr l = behind l fun _ => 0 := rfl

/-- A string of which the zero is found, or not. -/
theorem add_eq (o : State) (str : ℕ → UInt8) :
    ∃ o', o.add str = (decide (strnlen str o.gsize < o.gsize), o') ∧
    o.Wrote o'.toCursor (firstBytes str (strnlen str o.gsize)) ∧
      o'.gsize = o.gsize - strnlen str o.gsize ∧
      o'.frames = o.frames ∧ Cursor.Within o.pt (o.pt + o.gsize) o.toCursor o'.toCursor := by
  obtain ⟨c', hc', hw, hin⟩ := addLoop_eq str o.gsize o.toCursor
  refine ⟨{ o with gsize := o.gsize - strnlen str o.gsize, toCursor := c' }, ?_, hw, rfl, rfl, hin⟩
  rw [State.add, hc']

/-- A text with what is behind it is written if there is room. -/
theorem add_behind (hl : 0 ∉ l) (o : State) (rest : ℕ → UInt8) : ∃ o',
    o.add (behind l rest) = (decide (l.length + strnlen rest o.gsize < o.gsize), o') ∧
      o'.frames = o.frames ∧
      Cursor.Within o.pt (o.pt + o.gsize) o.toCursor o'.toCursor ∧
      (l.length + strnlen rest o.gsize < o.gsize →
        o.Wrote o'.toCursor (l ++ firstBytes rest (strnlen rest o.gsize)) ∧
          o'.gsize + (l.length + strnlen rest o.gsize) = o.gsize) ∧
      (¬l.length + strnlen rest o.gsize < o.gsize → (∃ w, o.Wrote o'.toCursor w) ∧
      o'.pt = o.pt + o.gsize) := by
  obtain ⟨o', ho', hw, hg, hf, hin⟩ := add_eq o (behind l rest)
  rw [strnlen_behind hl] at ho' hw hg
  by_cases hlt : l.length + strnlen rest o.gsize < o.gsize
  · rw [Nat.min_eq_right hlt.le] at ho' hw hg
    rw [firstBytes_behind] at hw
    exact ⟨o', ho', hf, hin, fun _ => ⟨hw, by omega⟩, fun h => absurd hlt h⟩
  · rw [Nat.min_eq_left (Nat.not_lt.1 hlt)] at ho' hw hg
    refine ⟨o', by rw [ho', decide_eq_false hlt, decide_eq_false (lt_irrefl _)], hf, hin,
      fun h => absurd h hlt, fun _ => ⟨⟨_, hw⟩, ?_⟩⟩
    rw [hw.pt, length_firstBytes]

/-- There is no zero in a numeral. -/
theorem zero_notMem_intText (m : ℤ) : 0 ∉ intText m := by
  rw [intText]
  split_ifs
  · rw [List.mem_cons, not_or]
    exact ⟨by decide, zero_notMem_numeral _⟩
  · exact zero_notMem_numeral _

/-- A numeral is not empty. -/
theorem intText_ne_nil (m : ℤ) : intText m ≠ [] := by
  rw [intText]
  split_ifs
  · exact List.cons_ne_nil _ _
  · exact numeral_ne_nil _

/-- There is no zero in what is written of the stack. -/
theorem zero_notMem_litter (E : Env) (g k : ℕ) : 0 ∉ litter E g k := zero_notMem_firstBytes le_rfl

/-- There is no zero in what is written. -/
theorem zero_notMem_bytes (hx : x.Ok) (g k : ℕ) : 0 ∉ x.bytes E g k := by
  cases x with
  | text l => exact hx.1
  | number p m digits pad =>
    obtain ⟨h0, hlt, hpos, hd, hpad⟩ := hx
    rw [Piece.bytes, List.mem_append, not_or]
    exact ⟨(convText_spec h0 hlt hpos hd hpad).1, zero_notMem_litter E g k⟩
  | zone => exact zero_notMem_intText _
  | char c => exact fun h => hx (List.mem_singleton.1 h).symm
  | room => exact List.not_mem_nil

/-- No piece is empty. -/
theorem doc_ne_nil (hx : x.Ok) (hroom : x ≠ .room) : x.doc E ≠ [] := by
  cases x with
  | text l => exact hx.2
  | number p m digits pad => exact places_ne_nil _ _ _
  | zone => exact intText_ne_nil _
  | char c => exact List.cons_ne_nil _ _
  | room => exact absurd rfl hroom

/-- There is no zero in a text. -/
theorem zero_notMem_textOf (hok : ∀ x ∈ xs, x.Ok) : 0 ∉ textOf E xs := by
  intro h
  obtain ⟨x, hx, hdoc⟩ := List.mem_flatMap.1 h
  have hx := hok x hx
  cases x with
  | text l => exact hx.1 hdoc
  | number p m digits pad => exact zero_notMem_places hx.2.2.2.2 m hdoc
  | zone => exact zero_notMem_intText _ hdoc
  | char c => exact hx (List.mem_singleton.1 hdoc).symm
  | room => exact absurd hdoc List.not_mem_nil

/-- Where a piece fits, it is written. -/
theorem write_of_fits (hx : x.Ok) (hfits : x.Fits E o.gsize o.frames) :
    ∃ o', x.write E o = (true, o') ∧ Written E x o o' := by
  cases x with
  | text l =>
    obtain ⟨o', ho', hf, hin, hyes, -⟩ := add_behind hx.1 o fun _ => 0
    have hzero : strnlen (fun _ => 0) o.gsize = 0 := by cases o.gsize <;> rfl
    rw [hzero, Nat.add_zero] at ho' hyes
    obtain ⟨hw, hg⟩ := hyes hfits
    have hlt : l.length < o.gsize := hfits
    refine ⟨o', by rw [Piece.write, cstr_eq_behind, ho', decide_eq_true hlt], ?_, hg, hf,
      fun _ => hin⟩
    simpa [firstBytes, Piece.bytes] using hw
  | number p m digits pad =>
    obtain ⟨h0, hlt, hpos, hd, hpad⟩ := hx
    -- The digits stand in front of whatever the stack holds behind them.
    have hnum := convText_spec h0 hlt hpos hd hpad
    obtain ⟨o', ho', hf, hin, hyes, -⟩ :=
      add_behind hnum.1 { o with frames := o.frames + 1 } (E.stack o.frames)
    have hroom :
        (convText p m digits pad).length + strnlen (E.stack o.frames) o.gsize < o.gsize := by
      simpa [Piece.Fits, Piece.bytes, litter] using hfits
    obtain ⟨hw, hg⟩ := hyes hroom
    refine ⟨o', by rw [Piece.write, State.addNumber, ho', decide_eq_true hroom], hw, ?_, hf,
      fun _ => hin⟩
    simpa [Piece.cost, Piece.bytes, litter] using hg
  | zone =>
    -- The zone is written without a look at the room.
    refine ⟨o.sprintf (E.timezone.tdiv 3600), rfl, ?_, rfl, rfl, fun h => absurd rfl h⟩
    exact (Cursor.Wrote.putAll _ _).store 0
  | char c =>
    obtain ⟨g, hg⟩ := Nat.exists_eq_succ_of_ne_zero (Nat.ne_of_gt hfits)
    refine ⟨{ o with gsize := g, toCursor := o.toCursor.put c }, ?_, .put _ c, hg.symm, rfl,
      fun _ => ?_⟩
    · rw [Piece.write, State.putChar, hg]
    · exact .put le_rfl (Nat.lt_add_of_pos_right hfits)
  | room =>
    have hne : o.gsize ≠ 0 := Nat.ne_of_gt hfits
    refine ⟨o, ?_, .refl _, rfl, rfl, fun _ => .refl _⟩
    rw [Piece.write, decide_eq_true hne]

/-- Where it does not, the room is used up. -/
theorem write_of_not_fits (hx : x.Ok) (hfits : ¬x.Fits E o.gsize o.frames) :
    ∃ o', x.write E o = (false, o') ∧ Failed o o' := by
  -- The zone fits always; a character without room wraps the room left.
  cases x with
  | text l =>
    obtain ⟨o', ho', -, hin, -, hno⟩ := add_behind hx.1 o fun _ => 0
    have hzero : strnlen (fun _ => 0) o.gsize = 0 := by cases o.gsize <;> rfl
    rw [hzero, Nat.add_zero] at ho' hno
    obtain ⟨hw, hpt⟩ := hno hfits
    have hlt : ¬l.length < o.gsize := hfits
    exact ⟨o', by rw [Piece.write, cstr_eq_behind, ho', decide_eq_false hlt], hw, hpt.ge, hin⟩
  | number p m digits pad =>
    obtain ⟨h0, hlt, hpos, hd, hpad⟩ := hx
    have hnum := convText_spec h0 hlt hpos hd hpad
    obtain ⟨o', ho', -, hin, -, hno⟩ :=
      add_behind hnum.1 { o with frames := o.frames + 1 } (E.stack o.frames)
    have hroom :
        ¬(convText p m digits pad).length + strnlen (E.stack o.frames) o.gsize < o.gsize := by
      simpa [Piece.Fits, Piece.bytes, litter] using hfits
    obtain ⟨hw, hpt⟩ := hno hroom
    exact ⟨o', by rw [Piece.write, State.addNumber, ho', decide_eq_false hroom], hw, hpt.ge, hin⟩
  | zone => exact absurd trivial hfits
  | char c =>
    have hg : o.gsize = 0 := Nat.eq_zero_of_not_pos hfits
    refine ⟨{ o with gsize := 2 ^ 32 - 1 }, ?_, ⟨[], .refl _⟩, by simp [hg], .refl _⟩
    rw [Piece.write, State.putChar, hg]
  | room =>
    have hg : o.gsize = 0 := Nat.eq_zero_of_not_pos hfits
    refine ⟨o, ?_, ⟨[], .refl _⟩, by simp [hg], .refl _⟩
    rw [Piece.write, hg]
    rfl

/-! ## Runs -/

/-- The stack holds a zero behind the digits of the numbers, none of them is a zero that is padded
    with something else, and there is no `%Z`. -/
def Sound (E : Env) : ℕ → List Piece → Prop
  | _, [] => True
  | k, .number _ m _ pad :: xs => (E.stack k 0 = 0 ∧ (0 < m ∨ pad = ch '0')) ∧ Sound E (k + 1) xs
  | _, .zone :: _ => False
  | k, _ :: xs => Sound E k xs

/-- There is a `%Z`, and room for what comes before it. -/
def Reaches (E : Env) : ℕ → ℕ → List Piece → Prop
  | _, _, [] => False
  | _, _, .zone :: _ => True
  | g, k, x :: xs => x.Fits E g k ∧ Reaches E (g - x.cost E g k) (k + x.frames) xs

/-- One piece, and the others. -/
theorem sound_cons (k : ℕ) (x : Piece) (xs : List Piece) :
    Sound E k (x :: xs) ↔ Sound E k [x] ∧ Sound E (k + x.frames) xs := by
  cases x <;> simp [Sound, Piece.frames]

/-- A piece that is no `%Z`, and the others. -/
theorem reaches_cons (hx : x ≠ .zone) :
    Reaches E g k (x :: xs) ↔ x.Fits E g k ∧ Reaches E (g - x.cost E g k) (k + x.frames) xs := by
  cases x with
  | zone => exact absurd rfl hx
  | _ => rfl

/-- A string is empty if it begins with its zero. -/
theorem strnlen_eq_zero_iff (hg : 0 < g) : strnlen str g = 0 ↔ str 0 = 0 := by
  obtain ⟨g, rfl⟩ := Nat.exists_eq_succ_of_ne_zero hg.ne'
  rw [strnlen]
  split_ifs with h
  · exact iff_of_true rfl h
  · exact iff_of_false id h

/-- A piece that is sound has its text. -/
theorem bytes_of_sound (hx : x.Ok) (hsound : Sound E k [x]) (g : ℕ) : x.bytes E g k = x.doc E ∧
    x ≠ .zone := by
  cases x with
  | number p m digits pad =>
    obtain ⟨h0, hlt, hpos, hd, hpad⟩ := hx
    have hnul : strnlen (E.stack k) g = 0 := by
      rcases Nat.eq_zero_or_pos g with rfl | hg
      · rfl
      · exact (strnlen_eq_zero_iff hg).2 hsound.1.1
    refine ⟨?_, Piece.noConfusion⟩
    rw [Piece.bytes, litter, hnul, (convText_spec h0 hlt hpos hd hpad).2.2.2 hsound.1.2]
    exact List.append_nil _
  | zone => exact hsound.elim
  | text l => exact ⟨rfl, Piece.noConfusion⟩
  | char c => exact ⟨rfl, Piece.noConfusion⟩
  | room => exact ⟨rfl, Piece.noConfusion⟩

/-- A piece is not shorter than its text; and it has its text only if it is sound, or `%Z`. -/
theorem doc_le_bytes (hx : x.Ok) (hfits : x.Fits E g k) :
    (x.doc E).length ≤ (x.bytes E g k).length ∧
    (x.bytes E g k = x.doc E → x ≠ .zone → Sound E k [x]) := by
  cases x with
  | number p m digits pad =>
    obtain ⟨h0, hlt, hpos, hd, hpad⟩ := hx
    obtain ⟨-, hlen, hiff⟩ := convText_spec h0 hlt hpos hd hpad
    have hg : 0 < g := Nat.zero_lt_of_lt hfits
    rw [Piece.bytes, Piece.doc]
    refine ⟨by rw [List.length_append, hlen]; exact Nat.le_add_right _ _, fun h _ => ⟨?_, trivial⟩⟩
    -- As long as the text, the number has nothing behind it.
    have hlitter := congrArg List.length h
    rw [List.length_append, hlen, Nat.add_eq_left, litter, length_firstBytes] at hlitter
    rw [litter, hlitter] at h
    exact ⟨(strnlen_eq_zero_iff hg).1 hlitter, hiff.1 (by simpa [firstBytes] using h)⟩
  | zone => exact ⟨le_rfl, fun _ h => absurd rfl h⟩
  | text l => exact ⟨le_rfl, fun _ _ => trivial⟩
  | char c => exact ⟨le_rfl, fun _ _ => trivial⟩
  | room => exact ⟨le_rfl, fun _ _ => trivial⟩

/-- A piece fits into more room than it has bytes. -/
theorem fits_of_length_lt (hg : (x.bytes E g k).length < g) : x.Fits E g k := by
  cases x with
  | zone => trivial
  | char c => exact Nat.zero_lt_of_lt hg
  | _ => exact hg

/-- A piece costs the room of its bytes, but for `%Z`. -/
theorem cost_eq (hx : x ≠ .zone) (g k : ℕ) : x.cost E g k = (x.bytes E g k).length := by
  cases x with
  | zone => exact absurd rfl hx
  | _ => rfl

/-- The first piece is written. -/
theorem run_of_write {b : Bool} (h : x.write E o = (b, o')) (xs : List Piece) :
    run E (x :: xs) o = if b then run E xs o' else (false, o') := by
  rw [run, h]
  cases b <;> rfl

/-- Pieces that are sound, and for which there is room, are written. -/
theorem run_of_sound (hok : ∀ x ∈ xs, x.Ok) (hsound : Sound E o.frames xs)
    (hlen : (textOf E xs).length < o.gsize) : ∃ o', run E xs o = (true, o') ∧
      o.Wrote o'.toCursor (textOf E xs) ∧ o'.gsize + (textOf E xs).length = o.gsize ∧
        Cursor.Within o.pt (o.pt + o.gsize) o.toCursor o'.toCursor := by
  induction xs generalizing o with
  | nil => exact ⟨o, rfl, .refl _, rfl, .refl _⟩
  | cons x xs ih =>
    -- The first piece fits, as it has its text, and takes as much of the room.
    obtain ⟨hx, hok⟩ := List.forall_mem_cons.1 hok
    obtain ⟨hs, hsound⟩ := (sound_cons _ _ _).1 hsound
    obtain ⟨hbytes, hzone⟩ := bytes_of_sound hx hs o.gsize
    rw [textOf_cons, List.length_append] at hlen
    have hfits : x.Fits E o.gsize o.frames := fits_of_length_lt (by rw [hbytes]; omega)
    obtain ⟨o₁, hwrite, hw, hg, hf, hin⟩ := write_of_fits hx hfits
    rw [cost_eq hzone, hbytes] at hg
    rw [hbytes] at hw
    obtain ⟨o', hrun, hw', hg', hin'⟩ := ih (o := o₁) hok (by rwa [hf]) (by omega)
    have hpt := hw.pt
    refine ⟨o', by rw [run_of_write hwrite, if_pos rfl, hrun], hw.trans hw', ?_, ?_⟩
    · rw [textOf_cons, List.length_append]
      omega
    · exact (hin hzone).trans (hin'.mono (by omega) (by omega))

/-- A piece that takes as much of the room as it writes is no `%Z`. -/
theorem ne_zone_of_cost (h : x.cost E g k = (x.bytes E g k).length) : x ≠ .zone := by
  rintro rfl
  exact intText_ne_nil _ (List.length_eq_zero_iff.1 h.symm)

/-- No piece costs more. -/
theorem cost_le (x : Piece) (g k : ℕ) : x.cost E g k ≤ (x.bytes E g k).length := by
  cases x <;> first | exact le_rfl | exact Nat.zero_le _

/-- What is written by a run that succeeds. It is not shorter than the text, and where it is the
    text, and as much as the room has become less, the pieces are sound. -/
theorem run_true (hok : ∀ x ∈ xs, x.Ok) (hrun : run E xs o = (true, o')) : ∃ w,
    o.Wrote o'.toCursor w ∧ 0 ∉ w ∧ (textOf E xs).length ≤ w.length ∧
      o.gsize ≤ o'.gsize + w.length ∧
      (w = textOf E xs → o'.gsize + w.length = o.gsize → Sound E o.frames xs) := by
  -- By induction on the pieces, each of which is written behind the ones before.
  induction xs generalizing o with
  | nil =>
    obtain rfl : o = o' := (Prod.mk.inj hrun).2
    exact ⟨[], .refl _, List.not_mem_nil, le_rfl, le_rfl, fun _ _ => trivial⟩
  | cons x xs ih =>
    obtain ⟨hx, hok⟩ := List.forall_mem_cons.1 hok
    by_cases hfits : x.Fits E o.gsize o.frames
    · obtain ⟨o₁, hwrite, hw, hg, hf, -⟩ := write_of_fits hx hfits
      rw [run_of_write hwrite, if_pos rfl] at hrun
      obtain ⟨w, hw', h0, hlen, hge, hsound⟩ := ih hok hrun
      have hcost := cost_le (E := E) x o.gsize o.frames
      obtain ⟨hdoc, hown⟩ := doc_le_bytes hx hfits
      refine ⟨_, hw.trans hw', ?_, ?_, ?_, fun heq hroom => ?_⟩
      · rw [List.mem_append, not_or]
        exact ⟨zero_notMem_bytes hx _ _, h0⟩
      · rw [textOf_cons, List.length_append, List.length_append]
        omega
      · rw [List.length_append]
        omega
      · -- Neither the piece nor the rest is shorter than its text, so each of them is its text.
        rw [textOf_cons] at heq
        rw [List.length_append] at hroom
        have hlengths := congrArg List.length heq
        rw [List.length_append, List.length_append] at hlengths
        obtain ⟨hbytes, hrest⟩ := List.append_inj heq (by omega)
        have hzone : x.cost E o.gsize o.frames = (x.bytes E o.gsize o.frames).length := by omega
        rw [sound_cons, ← hf]
        exact ⟨hown hbytes (ne_zone_of_cost hzone), hsound hrest (by omega)⟩
    · obtain ⟨o₁, hwrite, -⟩ := write_of_not_fits hx hfits
      rw [run_of_write hwrite] at hrun
      exact absurd (Prod.mk.inj hrun).1 Bool.false_ne_true

/-- A run that fails has used up the room, and written more than that if it has reached a `%Z`. -/
theorem run_false (hok : ∀ x ∈ xs, x.Ok) (hrun : run E xs o = (false, o')) :
    ∃ w, o.Wrote o'.toCursor w ∧
    o.pt + o.gsize ≤ o'.pt ∧ (Reaches E o.gsize o.frames xs → o.pt + o.gsize < o'.pt) := by
  induction xs generalizing o with
  | nil => exact absurd (Prod.mk.inj hrun).1.symm Bool.false_ne_true
  | cons x xs ih =>
    obtain ⟨hx, hok⟩ := List.forall_mem_cons.1 hok
    by_cases hfits : x.Fits E o.gsize o.frames
    · obtain ⟨o₁, hwrite, hw, hg, hf, -⟩ := write_of_fits hx hfits
      rw [run_of_write hwrite, if_pos rfl] at hrun
      obtain ⟨w, hw', hpt, hlt⟩ := ih hok hrun
      have hpt₁ := hw.pt
      have hcost := cost_le (E := E) x o.gsize o.frames
      refine ⟨_, hw.trans hw', by omega, fun hreach => ?_⟩
      -- It is either this piece that the room is not counted for, or one of the rest.
      by_cases hzone : x.cost E o.gsize o.frames = (x.bytes E o.gsize o.frames).length
      · have hgsize : o.gsize - x.cost E o.gsize o.frames = o₁.gsize := by omega
        have hrest := ((reaches_cons (ne_zone_of_cost hzone)).1 hreach).2
        rw [hgsize, ← hf] at hrest
        have hlt := hlt hrest
        omega
      · omega
    · obtain ⟨o₁, hwrite, ⟨w, hw⟩, hpt, -⟩ := write_of_not_fits hx hfits
      rw [run_of_write hwrite] at hrun
      obtain rfl : o₁ = o' := (Prod.mk.inj hrun).2
      have hzone : x ≠ .zone := fun h => hfits (h ▸ trivial)
      exact ⟨w, hw, hpt, fun hreach => absurd ((reaches_cons hzone).1 hreach).1 hfits⟩

/-- A run that does not reach a `%Z` keeps to the room, and what it has written has been counted. -/
theorem run_of_not_reaches (hok : ∀ x ∈ xs, x.Ok)
    (hreach : ¬Reaches E o.gsize o.frames xs) {b : Bool}
    (hrun : run E xs o = (b, o')) : Cursor.Within o.pt (o.pt + o.gsize) o.toCursor o'.toCursor ∧
      (b = true → (textOf E xs).length + o'.gsize ≤ o.gsize) := by
  -- By induction on the pieces; the zone, which may write beyond the room, is never reached.
  induction xs generalizing o with
  | nil =>
    obtain rfl : o = o' := (Prod.mk.inj hrun).2
    exact ⟨.refl _, fun _ => (Nat.zero_add _).le⟩
  | cons x xs ih =>
    obtain ⟨hx, hok⟩ := List.forall_mem_cons.1 hok
    have hzone : x ≠ .zone := fun h => hreach (h ▸ trivial)
    by_cases hfits : x.Fits E o.gsize o.frames
    · obtain ⟨o₁, hwrite, hw, hg, hf, hin⟩ := write_of_fits hx hfits
      rw [run_of_write hwrite, if_pos rfl] at hrun
      have hpt := hw.pt
      rw [cost_eq hzone] at hg
      have hgsize : o.gsize - x.cost E o.gsize o.frames = o₁.gsize := by
        rw [cost_eq hzone]
        omega
      have hrest : ¬Reaches E o₁.gsize o₁.frames xs := fun h =>
        hreach ((reaches_cons hzone).2 ⟨hfits, by rwa [hgsize, ← hf]⟩)
      obtain ⟨hin', hlen⟩ := ih hok hrest hrun
      have hdoc := (doc_le_bytes hx hfits).1
      refine ⟨(hin hzone).trans (hin'.mono (by omega) (by omega)), fun hb => ?_⟩
      have hlen := hlen hb
      rw [textOf_cons, List.length_append]
      omega
    · obtain ⟨o₁, hwrite, -, -, hin⟩ := write_of_not_fits hx hfits
      rw [run_of_write hwrite] at hrun
      obtain ⟨rfl, rfl⟩ := Prod.mk.inj hrun
      exact ⟨hin, fun h => absurd h Bool.false_ne_true⟩

/-- In the end, the room is looked at. -/
theorem piecesLoop_room (inner : List UInt8 → List Piece) (cs : List UInt8) :
    ∃ ys, piecesLoop E t inner cs = ys ++ [.room] := by
  induction cs using piecesLoop.induct with
  | case1 => exact ⟨[], rfl⟩
  | case2 c => exact ⟨[.char c], rfl⟩
  | case3 c' cs ih =>
    obtain ⟨ys, hys⟩ := ih
    exact ⟨_, by rw [piecesLoop, if_pos rfl, hys, List.append_assoc]⟩
  | case4 c c' cs hc ih =>
    obtain ⟨ys, hys⟩ := ih
    exact ⟨.char c :: ys, by rw [piecesLoop, if_neg hc, hys, List.cons_append]⟩

/-- A format that succeeds leaves room for the zero. -/
theorem room_of_run (h : run E (pieces E t fmt) o = (true, o')) : o'.gsize ≠ 0 := by
  obtain ⟨ys, hys⟩ : ∃ ys, pieces E t fmt = ys ++ [.room] := piecesLoop_room _ fmt
  rw [hys, run_append] at h
  rcases hrun : run E ys o with ⟨b, o₁⟩
  rw [hrun] at h
  cases b with
  | false => exact absurd (Prod.mk.inj h).1 Bool.false_ne_true
  | true =>
    have hroom : (decide (o₁.gsize ≠ 0), o₁) = (true, o') := (run_singleton .room o₁).symm.trans h
    obtain ⟨hg, rfl⟩ := Prod.mk.inj hroom
    exact of_decide_eq_true hg

/-- Where there is no text, there is nothing to be written. -/
theorem sound_of_textOf_nil (hok : ∀ x ∈ xs, x.Ok) (h : textOf E xs = []) (k : ℕ) :
    Sound E k xs := by
  induction xs generalizing k with
  | nil => trivial
  | cons x xs ih =>
    obtain ⟨hx, hxs⟩ := List.forall_mem_cons.1 hok
    obtain ⟨hdoc, hrest⟩ := List.append_eq_nil_iff.1 h
    obtain rfl : x = .room := by
      by_contra hroom
      exact doc_ne_nil hx hroom hdoc
    exact ih hxs hrest k

/-! ## A call -/

/-- A text is in memory, with a zero behind it. -/
structure Holds (mem : ℕ → UInt8) (s : ℕ) (l : List UInt8) : Prop where
  text : ∀ i (h : i < l.length), mem (s + i) = l[i]
  zero : mem (s + l.length) = 0

/-- The call with the buffer at `s` writes in the buffer only; where the text of the format fits, it
    returns the length, and the text is in the buffer, and otherwise it returns 0. -/
structure Correct (E : Env) (mem : ℕ → UInt8) (s maxsize : ℕ) (fmt : List UInt8)
    (t : Tm) : Prop where
  within : ∀ a ∈ (strftime E ⟨mem, s, []⟩ maxsize fmt t).2.written, s ≤ a ∧ a < s + maxsize
  fits : (expansion E t fmt).length < maxsize →
    (strftime E ⟨mem, s, []⟩ maxsize fmt t).1 = (expansion E t fmt).length ∧
      Holds (strftime E ⟨mem, s, []⟩ maxsize fmt t).2.mem s (expansion E t fmt)
  not_fits : ¬(expansion E t fmt).length < maxsize → (strftime E ⟨mem, s, []⟩ maxsize fmt t).1 = 0

/-- Where a call begins. -/
def initial (mem : ℕ → UInt8) (s maxsize : ℕ) : State := ⟨⟨mem, s, []⟩, maxsize, 0⟩

section Call

variable {mem : ℕ → UInt8} {s maxsize : ℕ}

/-- In range, no conversion fails. -/
theorem directive_ne_fail (ht : InRange t) (c : UInt8) : directive t c ≠ .fail := by
  intro h
  have hok := directive_ok ht c
  rw [h] at hok
  exact hok

/-- What a call returns if all is written. -/
theorem strftime_of_true (ht : InRange t) (hsize : 0 < maxsize)
    (hrun : run E (pieces E t fmt) (initial mem s maxsize) = (true, o')) :
    strftime E ⟨mem, s, []⟩ maxsize fmt t = (maxsize - o'.gsize, o'.toCursor.store 0) := by
  have hformat := (format_eq_run (directive_ne_fail ht) fmt _).trans hrun
  rw [initial] at hformat
  rw [strftime, if_neg (Nat.not_lt.2 hsize), hformat]
  rfl

/-- What a call returns if something does not fit. -/
theorem strftime_of_false (ht : InRange t) (hsize : 0 < maxsize)
    (hrun : run E (pieces E t fmt) (initial mem s maxsize) = (false, o')) :
    strftime E ⟨mem, s, []⟩ maxsize fmt t = (0, o'.toCursor) := by
  have hformat := (format_eq_run (directive_ne_fail ht) fmt _).trans hrun
  rw [initial] at hformat
  rw [strftime, if_neg (Nat.not_lt.2 hsize), hformat]
  rfl

/-- What has been written by the call, if nothing is written outside the bounds. -/
theorem within_initial {c : Cursor UInt8}
    (h : Cursor.Within s (s + maxsize) (initial mem s maxsize).toCursor c) :
    ∀ a ∈ c.written, s ≤ a ∧ a < s + maxsize := fun a ha => (h a ha).resolve_left List.not_mem_nil

/-- A sound format that fits is written. -/
theorem correct_of_sound (mem : ℕ → UInt8) (s : ℕ) (ht : InRange t) (hfmt : 0 ∉ fmt)
    (hlen : (expansion E t fmt).length < maxsize)
    (hsound : Sound E 0 (pieces E t fmt)) : Correct E mem s maxsize fmt t := by
  have hsize := Nat.zero_lt_of_lt hlen
  have htext := textOf_pieces (E := E) ht fmt
  obtain ⟨o', hrun, hw, hg, hin⟩ :=
    run_of_sound (o := initial mem s maxsize) (ok_pieces ht hfmt) hsound
    (by rwa [htext])
  rw [htext] at hw hg
  have hpt : o'.pt = s + (expansion E t fmt).length := hw.pt
  have hgsize : o'.gsize + (expansion E t fmt).length = maxsize := hg
  have hcall := strftime_of_true ht hsize hrun
  refine ⟨?_, fun _ => ?_, fun h => absurd hlen h⟩
  · rw [hcall]
    have hstore : Cursor.Within s (s + maxsize) o'.toCursor (o'.toCursor.store 0) :=
      .store (by omega) (by omega)
    exact within_initial (hin.trans hstore)
  · rw [hcall]
    refine ⟨by omega, (hw.store 0).text, ?_⟩
    rw [← hpt]
    exact Cursor.store_mem_self

/-- If the text is in the buffer in the end, there is no more room left than it leaves; and where it
    is as much, the format is sound. -/
theorem sound_of_holds (ht : InRange t) (hfmt : 0 ∉ fmt) (hsize : 0 < maxsize)
    (hrun : run E (pieces E t fmt) (initial mem s maxsize) = (true, o'))
    (hholds : Holds (strftime E ⟨mem, s, []⟩ maxsize fmt t).2.mem s (expansion E t fmt)) :
    maxsize ≤ o'.gsize + (expansion E t fmt).length ∧
      (o'.gsize + (expansion E t fmt).length = maxsize → Sound E 0 (pieces E t fmt)) := by
  have hok := ok_pieces (E := E) ht hfmt
  have htext := textOf_pieces (E := E) ht fmt
  obtain ⟨w, hw, h0, -, hroom, hsound⟩ := run_true hok hrun
  have hpt : o'.pt = s + w.length := hw.pt
  rw [strftime_of_true ht hsize hrun] at hholds
  have hzero : (o'.toCursor.store 0).mem (s + w.length) = 0 := by
    rw [← hpt]
    exact Cursor.store_mem_self
  have heq : w = expansion E t fmt := Cursor.eq_of_terminated h0 (htext ▸ zero_notMem_textOf hok)
    (hw.store 0).text hzero hholds.text hholds.zero
  rw [← heq]
  exact ⟨hroom, hsound (heq.trans htext.symm)⟩

/-- A format that is written is sound. -/
theorem sound_of_correct (ht : InRange t) (hfmt : 0 ∉ fmt)
    (hlen : (expansion E t fmt).length < maxsize)
    (h : Correct E mem s maxsize fmt t) : Sound E 0 (pieces E t fmt) := by
  have hsize := Nat.zero_lt_of_lt hlen
  rcases Nat.eq_zero_or_pos (expansion E t fmt).length with hempty | hpos
  · have htext := textOf_pieces (E := E) ht fmt
    exact sound_of_textOf_nil (ok_pieces ht hfmt) (htext.trans (List.length_eq_zero_iff.1 hempty)) 0
  obtain ⟨hret, hholds⟩ := h.fits hlen
  rcases hrun : run E (pieces E t fmt) (initial mem s maxsize) with ⟨_ | _, o'⟩
  · rw [strftime_of_false ht hsize hrun] at hret
    exact absurd hret hpos.ne
  · refine (sound_of_holds ht hfmt hsize hrun hholds).2 ?_
    rw [strftime_of_true ht hsize hrun] at hret
    dsimp only at hret
    omega

/-- Where a `%Z` is reached in a format that does not fit, something is written behind the
    buffer. -/
theorem not_within_of_reaches (ht : InRange t) (hfmt : 0 ∉ fmt)
    (hlen : maxsize ≤ (expansion E t fmt).length)
    (hsize : 0 < maxsize) (hreach : Reaches E maxsize 0 (pieces E t fmt)) :
    s + maxsize ∈ (strftime E ⟨mem, s, []⟩ maxsize fmt t).2.written := by
  have hok := ok_pieces (E := E) ht hfmt
  have htext := textOf_pieces (E := E) ht fmt
  rcases hrun : run E (pieces E t fmt) (initial mem s maxsize) with ⟨_ | _, o'⟩
  · obtain ⟨w, hw, -, hlt⟩ := run_false hok hrun
    rw [strftime_of_false ht hsize hrun]
    exact hw.written _ (Nat.le_add_right s maxsize) (hlt hreach)
  · obtain ⟨w, hw, -, hle, -⟩ := run_true hok hrun
    have hpt : o'.pt = s + w.length := hw.pt
    rw [htext] at hle
    rw [strftime_of_true ht hsize hrun]
    -- The zero is behind the buffer, if it is not the text.
    rcases Nat.eq_or_lt_of_le (hlen.trans hle) with heq | hlt
    · rw [heq, ← hpt]
      exact List.mem_cons_self
    · exact List.mem_cons_of_mem _ (hw.written _ (Nat.le_add_right s maxsize) (by omega))

/-- Nothing is written into a buffer of no bytes. -/
theorem correct_of_empty (mem : ℕ → UInt8) (s : ℕ) (fmt : List UInt8) : Correct E mem s 0 fmt t :=
  ⟨fun _ ha => absurd ha List.not_mem_nil, fun h => absurd h (Nat.not_lt_zero _), fun _ => rfl⟩

/-- Otherwise the call returns 0. -/
theorem correct_of_not_reaches (ht : InRange t) (hfmt : 0 ∉ fmt)
    (hlen : maxsize ≤ (expansion E t fmt).length)
    (hreach : ¬Reaches E maxsize 0 (pieces E t fmt)) : Correct E mem s maxsize fmt t := by
  rcases Nat.eq_zero_or_pos maxsize with rfl | hsize
  · exact correct_of_empty mem s fmt
  rcases hrun : run E (pieces E t fmt) (initial mem s maxsize) with ⟨_ | _, o'⟩
  · obtain ⟨hin, -⟩ := run_of_not_reaches (ok_pieces ht hfmt) hreach hrun
    have hcall := strftime_of_false ht hsize hrun
    refine ⟨?_, fun h => absurd h (Nat.not_lt.2 hlen), fun _ => by rw [hcall]⟩
    rw [hcall]
    exact within_initial hin
  · -- It cannot have been written, with room for the zero.
    have hroom := room_of_run hrun
    obtain ⟨-, hle⟩ := run_of_not_reaches (ok_pieces ht hfmt) hreach hrun
    have hle : (textOf E (pieces E t fmt)).length + o'.gsize ≤ maxsize := hle rfl
    rw [textOf_pieces ht] at hle
    omega

end Call

/-- The calls that are right. -/
theorem strftime_iff (ht : InRange t) (hfmt : 0 ∉ fmt) (mem : ℕ → UInt8) (s maxsize : ℕ) :
    Correct E mem s maxsize fmt t ↔
      if (expansion E t fmt).length < maxsize then Sound E 0 (pieces E t fmt)
      else maxsize = 0 ∨ ¬Reaches E maxsize 0 (pieces E t fmt) := by
  split_ifs with hlen
  · exact ⟨sound_of_correct ht hfmt hlen, correct_of_sound mem s ht hfmt hlen⟩
  · have hlen := Nat.not_lt.1 hlen
    constructor
    · intro h
      rcases Nat.eq_zero_or_pos maxsize with hzero | hsize
      · exact .inl hzero
      · refine .inr fun hreach => ?_
        have hin := h.within _ (not_within_of_reaches ht hfmt hlen hsize hreach)
        exact absurd hin.2 (lt_irrefl _)
    · rintro (rfl | hreach)
      · exact correct_of_empty ..
      · exact correct_of_not_reaches ht hfmt hlen hreach

/-! ## `asctime_r` -/

/-- The text that `asctime_r` is to give. -/
def ascText (t : Tm) : List UInt8 :=
  nameText abrWeekDays t.wday ++ ch ' ' :: (nameText abrMonthNames t.mon ++ ch ' ' :: (two t.mday ++
    ch ' ' :: (two t.hour ++ ch ':' :: (two t.min ++ ch ':' :: (two t.sec ++ ch ' ' ::
      (yearText t ++ lit "\n"))))))

/-- The call with the buffer at `s` writes in the buffer only; up to the year 99999 it gives the
    text, and later, when the text does not fit, null. -/
structure AscCorrect (E : Env) (mem : ℕ → UInt8) (s : ℕ) (t : Tm) : Prop where
  within : ∀ a ∈ (asctime_r E ⟨mem, s, []⟩ t).2.written, s ≤ a ∧ a < s + sizeofASCBUF
  fits : t.year + TM_YEAR_BASE < 10 ^ 5 → (asctime_r E ⟨mem, s, []⟩ t).1 = true ∧
    Holds (asctime_r E ⟨mem, s, []⟩ t).2.mem s (ascText t)
  not_fits : ¬t.year + TM_YEAR_BASE < 10 ^ 5 → (asctime_r E ⟨mem, s, []⟩ t).1 = false

section Asctime

variable {mem : ℕ → UInt8} {s : ℕ}

/-- `asctime_r` is a call of `strftime`. -/
theorem asctime_r_eq (E : Env) (c : Cursor UInt8) (t : Tm) : asctime_r E c t =
    (decide ((strftime E c sizeofASCBUF (lit "%a %b %d %H:%M:%S %Y\n") t).1 ≠ 0),
      (strftime E c sizeofASCBUF (lit "%a %b %d %H:%M:%S %Y\n") t).2) := rfl

/-- Its text. -/
theorem expansion_asctime (E : Env) (t : Tm) :
    expansion E t (lit "%a %b %d %H:%M:%S %Y\n") = ascText t := rfl

/-- Two digits. -/
theorem length_two {m : ℤ} (h0 : 0 ≤ m) (hm : m < 10 ^ 2) : (two m).length = 2 := by
  have hlt : m.toNat < 10 ^ 2 := by omega
  rw [two, places, List.length_leftpad]
  exact Nat.max_eq_left (length_numeral_le hlt (by decide))

/-- A name from a table of names of one length. -/
theorem length_nameText {table : List (List UInt8)} {i m : ℤ} (hlen : (table.length : ℤ) = m + 1)
    (hi : 0 ≤ i ∧ i ≤ m) (htable : ∀ s ∈ table, s.length = n) : (nameText table i).length = n := by
  have hlt : i.toNat < table.length := by omega
  rw [nameText, List.getD_eq_getElem _ _ hlt]
  exact htable _ (List.getElem_mem hlt)

/-- Years of up to five digits. -/
theorem length_yearText_le_iff (hyear : 0 ≤ t.year + TM_YEAR_BASE) :
    (yearText t).length ≤ 5 ↔ t.year + TM_YEAR_BASE < 10 ^ 5 := by
  have hdigits : (numeral 10 (t.year + TM_YEAR_BASE).toNat).length ≤ 5 ↔
      (t.year + TM_YEAR_BASE).toNat < 10 ^ 5 := by
    rw [numeral, List.length_map]
    exact Nat.length_toDigits_le_iff (by decide) (by decide)
  rw [yearText, places, List.length_leftpad]
  omega

/-- There is room for the text and a zero up to the year 99999. -/
theorem ascText_fits_iff (ht : InRange t) :
    (ascText t).length < sizeofASCBUF ↔ t.year + TM_YEAR_BASE < 10 ^ 5 := by
  rw [← length_yearText_le_iff ht.year.1]
  obtain ⟨hsec, hmin, hhour, hmday, hmon, -, hwday, -⟩ := ht
  have hwdays : (nameText abrWeekDays t.wday).length = 3 := length_nameText rfl hwday (by decide)
  have hmonths : (nameText abrMonthNames t.mon).length = 3 := length_nameText rfl hmon (by decide)
  have hnl : (lit "\n").length = 1 := rfl
  simp only [ascText, sizeofASCBUF, List.length_append, List.length_cons, hwdays, hmonths, hnl,
    length_two (m := t.mday) (by omega) (by omega), length_two (m := t.hour) (by omega) (by omega),
    length_two (m := t.min) (by omega) (by omega), length_two (m := t.sec) (by omega) (by omega)]
  omega

/-- Its format has five numbers, and no `%Z`. -/
theorem pieces_asctime (ht : InRange t) :
    (Sound E 0 (pieces E t (lit "%a %b %d %H:%M:%S %Y\n")) ↔ ∀ k < 5, E.stack k 0 = 0) ∧
      ¬Reaches E sizeofASCBUF 0 (pieces E t (lit "%a %b %d %H:%M:%S %Y\n")) := by
  have hpieces : pieces E t (lit "%a %b %d %H:%M:%S %Y\n") =
      (name abrWeekDays t.wday).pieces E (innerPieces E t) (ch 'a') ++ .char (ch ' ') ::
        ((name abrMonthNames t.mon).pieces E (innerPieces E t) (ch 'b') ++
          [.char (ch ' '), .number 8 t.mday 2 (ch '0'), .char (ch ' '),
            .number 8 t.hour 2 (ch '0'), .char (ch ':'), .number 8 t.min 2 (ch '0'),
            .char (ch ':'), .number 8 t.sec 2 (ch '0'), .char (ch ' '),
            .number 8 (t.year + TM_YEAR_BASE) 4 (ch '0'), .char (ch '\n'), .room]) := rfl
  rw [hpieces, name_eq (m := 6) rfl ht.wday, name_eq (m := 11) rfl ht.mon]
  constructor
  · have hlt : (∀ k < 5, E.stack k 0 = 0) ↔ E.stack 0 0 = 0 ∧ E.stack 1 0 = 0 ∧ E.stack 2 0 = 0 ∧
        E.stack 3 0 = 0 ∧ E.stack 4 0 = 0 := by
      simp only [Nat.forall_lt_succ_right, Nat.not_lt_zero, false_imp_iff, implies_true, true_and,
        and_assoc]
    rw [hlt]
    simp [Directive.pieces, Sound]
  · simp [Directive.pieces, Reaches]

/-- `asctime_r` is right if the stack holds a zero behind the digits of all five numbers, or the
    text does not fit. -/
theorem asctime_r_iff (ht : InRange t) (mem : ℕ → UInt8) (s : ℕ) :
    AscCorrect E mem s t ↔ (t.year + TM_YEAR_BASE < 10 ^ 5 → ∀ k < 5, E.stack k 0 = 0) := by
  have hfmt : 0 ∉ lit "%a %b %d %H:%M:%S %Y\n" := by decide
  obtain ⟨hstack, hreach⟩ := pieces_asctime (E := E) ht
  have hfits := ascText_fits_iff ht
  rw [← hfits, ← hstack]
  constructor
  · intro h hlen
    obtain ⟨hret, hholds⟩ := h.fits (hfits.1 hlen)
    rw [asctime_r_eq, decide_eq_true_eq] at hret
    rw [asctime_r_eq, ← expansion_asctime E] at hholds
    rcases hrun : run E (pieces E t (lit "%a %b %d %H:%M:%S %Y\n"))
      (initial mem s sizeofASCBUF) with ⟨_ | _, o'⟩
    · rw [strftime_of_false ht (by decide) hrun] at hret
      exact absurd rfl hret
    · obtain ⟨hge, hsound⟩ := sound_of_holds ht hfmt (by decide) hrun hholds
      obtain ⟨-, hle⟩ := run_of_not_reaches (ok_pieces ht hfmt) hreach hrun
      have hle := hle rfl
      rw [textOf_pieces ht] at hle
      exact hsound (le_antisymm ((Nat.add_comm ..).trans_le hle) hge)
  · intro hsound
    -- A text that fits is whole; of one that does not, nothing counts but the bounds.
    have hcorrect : Correct E mem s sizeofASCBUF (lit "%a %b %d %H:%M:%S %Y\n") t := by
      by_cases hlen : (ascText t).length < sizeofASCBUF
      · exact correct_of_sound mem s ht hfmt hlen (hsound hlen)
      · exact correct_of_not_reaches ht hfmt (Nat.not_lt.1 hlen) hreach
    refine ⟨hcorrect.within, fun hyear => ?_, fun hyear => ?_⟩
    · obtain ⟨hret, hholds⟩ := hcorrect.fits (hfits.2 hyear)
      refine ⟨?_, hholds⟩
      have hpos : (ascText t).length ≠ 0 := by simp [ascText]
      rw [asctime_r_eq, hret]
      exact decide_eq_true hpos
    · rw [asctime_r_eq, hcorrect.not_fits (mt hfits.1 hyear)]
      rfl

end Asctime

section Example

/-- The beginning of 1970. -/
def newYear : Tm := ⟨0, 0, 0, 1, 0, 70, 4, 0, 0⟩

/-- Eight hours east of Greenwich, with the byte `b` behind the digits on the stack. -/
def withStack (b : UInt8) : Env where
  timezone := -28800
  mktime := 1
  mktime_pos := by decide
  mktime_lt := by decide
  stack _ i := if i = 0 then b else 0

theorem inRange_newYear : InRange newYear :=
  ⟨by decide, by decide, by decide, by decide, by decide, by decide, by decide, by decide⟩

/-- The date of the day, with its name, in a buffer of 37 bytes, which its text and a zero fill. -/
theorem strftime_day :
    Correct (withStack 0) (fun _ => 0) 0 37 (lit "%A, %d %B %Y, %H:%M:%S%%") newYear := by
  rw [strftime_iff inRange_newYear (by decide), if_pos (by decide)]
  exact ⟨⟨rfl, .inr rfl⟩, ⟨rfl, .inr rfl⟩, ⟨rfl, .inr rfl⟩, ⟨rfl, .inr rfl⟩,
    ⟨rfl, .inr rfl⟩, trivial⟩

theorem asctime_r_newYear : AscCorrect (withStack 0) (fun _ => 0) 0 newYear := by
  rw [asctime_r_iff inRange_newYear]
  exact fun _ _ _ => rfl

/-- With a byte that is not zero on the stack, `%d` has a third character; `%Z` is written behind a
    buffer of one byte; and `%k` is two blanks in the first hour. -/
theorem not_correct_day : ¬Correct (withStack (ch 'x')) (fun _ => 0) 0 10 (lit "%d") newYear ∧
    ¬Correct (withStack 0) (fun _ => 0) 0 1 (lit "%Z") newYear ∧
    ¬Correct (withStack 0) (fun _ => 0) 0 10 (lit "%k") newYear := by
  refine ⟨fun h => ?_, fun h => ?_, fun h => ?_⟩
  · have hret := (h.fits (by decide)).1
    exact absurd hret (by decide)
  · have hin := h.within 1 (by decide)
    exact absurd hin.2 (by decide)
  · have htext := (h.fits (by decide)).2.text 1 (by decide)
    exact absurd htext (by decide)

end Example

end Strftime

end DemoOs
