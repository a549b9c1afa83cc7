import DemoOs.Time.Strftime
import Mathlib.Data.List.Count

/-!
# The text of a format

What each conversion of a format should give (`documented`), and with it the whole format
(`expansion`), for a time whose fields are in their ranges. The pieces of the format have these
texts (`textOf_pieces`), with numbers in so many places (`Piece.doc`), but for what `_conv` makes of
a zero: that is nothing but padding (`convText_spec`).
-/

namespace DemoOs

namespace Strftime

open Printk (ch lit numeral intText)

/-- The fields are in their ranges. A year has at most eight digits. -/
structure InRange (t : Tm) : Prop where
  sec : 0 ≤ t.sec ∧ t.sec ≤ 61
  min : 0 ≤ t.min ∧ t.min ≤ 59
  hour : 0 ≤ t.hour ∧ t.hour ≤ 23
  mday : 1 ≤ t.mday ∧ t.mday ≤ 31
  mon : 0 ≤ t.mon ∧ t.mon ≤ 11
  year : 0 ≤ t.year + TM_YEAR_BASE ∧ t.year + TM_YEAR_BASE < 10 ^ 8
  wday : 0 ≤ t.wday ∧ t.wday ≤ 6
  yday : 0 ≤ t.yday ∧ t.yday ≤ 365

/-- A number in at least `k` places. -/
def places (k : ℕ) (pad : UInt8) (n : ℤ) : List UInt8 := (numeral 10 n.toNat).leftpad k pad

/-- Two digits. -/
def two (n : ℤ) : List UInt8 := places 2 (ch '0') n

/-- Two digits, or a blank and one. -/
def blank (n : ℤ) : List UInt8 := places 2 (ch ' ') n

/-- The hours from 1 to 12. -/
def twelve (t : Tm) : ℤ := if t.hour = 0 then 12 else if t.hour ≤ 12 then t.hour else t.hour - 12

/-- How many days of the year, up to this one, are of a day of the week. -/
def weeks (t : Tm) (wday : ℤ) : ℕ :=
  (List.range (t.yday.toNat + 1)).countP fun d : ℕ => (t.wday - (t.yday - d)) % 7 = wday

def dateText (t : Tm) : List UInt8 :=
  two (t.mon + 1) ++ lit "/" ++ two t.mday ++ lit "/" ++ two ((t.year + TM_YEAR_BASE) % 100)

def timeText (t : Tm) : List UInt8 := two t.hour ++ lit ":" ++ two t.min ++ lit ":" ++ two t.sec

def yearText (t : Tm) : List UInt8 := places 4 (ch '0') (t.year + TM_YEAR_BASE)

def nameText (table : List (List UInt8)) (i : ℤ) : List UInt8 := table.getD i.toNat []

def halfText (t : Tm) : List UInt8 := if t.hour < 12 then lit "AM" else lit "PM"

/-- The text of a conversion. -/
def documented (E : Env) (t : Tm) (c : UInt8) : List UInt8 :=
  match Char.ofNat c.toNat with
  | 'A' => nameText weekDays t.wday
  | 'a' => nameText abrWeekDays t.wday
  | 'B' => nameText monthNames t.mon
  | 'b' => nameText abrMonthNames t.mon
  | 'h' => nameText abrMonthNames t.mon
  | 'C' => nameText abrWeekDays t.wday ++ lit " " ++ nameText abrMonthNames t.mon ++ lit " " ++
      blank t.mday ++
      lit " " ++ timeText t ++ lit " " ++ yearText t
  | 'c' => dateText t ++ lit " " ++ timeText t
  | 'D' => dateText t
  | 'd' => two t.mday
  | 'e' => blank t.mday
  | 'H' => two t.hour
  | 'I' => two (twelve t)
  | 'j' => places 3 (ch '0') (t.yday + 1)
  | 'k' => blank t.hour
  | 'l' => blank (twelve t)
  | 'M' => two t.min
  | 'm' => two (t.mon + 1)
  | 'n' => lit "\n"
  | 'p' => halfText t
  | 'R' => two t.hour ++ lit ":" ++ two t.min
  | 'r' => two (twelve t) ++ lit ":" ++ two t.min ++ lit ":" ++ two t.sec ++ lit " " ++ halfText t
  | 'S' => two t.sec
  | 's' => numeral 10 E.mktime.toNat
  | 'T' => timeText t
  | 'X' => timeText t
  | 't' => lit "\t"
  | 'U' => two (weeks t 0)
  | 'W' => two (weeks t 1)
  | 'w' => places 1 (ch '0') t.wday
  | 'x' => dateText t
  | 'y' => two ((t.year + TM_YEAR_BASE) % 100)
  | 'Y' => yearText t
  | 'Z' => intText (E.timezone.tdiv 3600)
  | _ => [c]

/-- The text of a format. -/
def expansion (E : Env) (t : Tm) : List UInt8 → List UInt8
  | [] => []
  | [c] => [c]
  | c :: c' :: cs =>
      if c = ch '%' then documented E t c' ++ expansion E t cs else c :: expansion E t (c' :: cs)

variable {E : Env} {t : Tm} {c pad : UInt8} {cs text : List UInt8} {n p k : ℕ} {digits : ℤ}

/-! ## Numbers -/

/-- The byte of a digit. -/
theorem byte_digit (hn : n < 10) : UInt8.ofNat (n + '0'.toNat) = ch (Nat.digitChar n) := by
  interval_cases n <;> rfl

/-- A digit is put in front for every digit of the number. -/
theorem digitLoop_eq (hn : 0 < n) (hp : n < 10 ^ p) : digitLoop p n digits text =
    (p - (numeral 10 n).length, digits - (numeral 10 n).length, numeral 10 n ++ text) := by
  induction p generalizing n digits text with
  | zero => exact absurd (Nat.lt_one_iff.1 hp) hn.ne'
  | succ p ih =>
    have hmod : ((n : ℤ) % 10).toNat = n % 10 := by omega
    have hdiv : (n : ℤ) / 10 = (n / 10 : ℕ) := by omega
    rw [digitLoop, if_pos (by omega), hmod, hdiv, byte_digit (Nat.mod_lt n (by decide))]
    rcases Nat.eq_zero_or_pos (n / 10) with hz | hpos
    · have hlt : n < 10 := by omega
      have hnum : numeral 10 n = [ch (Nat.digitChar n)] := by
        rw [numeral, Nat.toDigits_of_lt_base hlt, List.map_singleton]
      rw [hz, hnum, Nat.mod_eq_of_lt hlt]
      cases p with
      | zero => rfl
      | succ p => rw [digitLoop, if_neg (by omega)]; rfl
    · have hnum : numeral 10 n = numeral 10 (n / 10) ++ [ch (Nat.digitChar (n % 10))] := by
        rw [numeral, Nat.toDigits_of_base_le (by decide) (by omega), List.map_append,
          List.map_singleton, numeral]
      rw [ih hpos (Nat.div_lt_of_lt_mul (by rwa [← pow_succ'])), hnum, List.length_append,
        List.length_singleton, List.append_assoc]
      refine Prod.ext (by simp only; omega) (Prod.ext ?_ rfl)
      push_cast
      ring

/-- The loop pads up to the number of digits. -/
theorem padLoop_eq (hd : digits ≤ p) :
    padLoop pad p digits text = List.replicate digits.toNat pad ++ text := by
  induction p generalizing digits text with
  | zero =>
    rw [padLoop, Int.toNat_of_nonpos hd]
    rfl
  | succ p ih =>
    rw [padLoop]
    split_ifs with hpos
    · have hsucc : digits.toNat = (digits - 1).toNat + 1 := by omega
      rw [ih (by omega), hsucc, List.replicate_succ', List.append_assoc]
      rfl
    · rw [Int.toNat_of_nonpos (by omega)]
      rfl

/-- A numeral has as many digits as it needs. -/
theorem length_numeral_le (hp : n < 10 ^ p) (hpos : 0 < p) : (numeral 10 n).length ≤ p := by
  rw [numeral, List.length_map]
  exact (Nat.length_toDigits_le_iff (by decide) hpos).2 hp

/-- A number that is not zero. -/
theorem convText_of_pos (hn : 0 < n) (hp : n < 10 ^ p) (hd : digits ≤ p) :
    convText p n digits pad = places digits.toNat pad n := by
  have hpos : 0 < p := by
    rcases Nat.eq_zero_or_pos p with rfl | hpos
    · exact absurd (Nat.lt_one_iff.1 hp) hn.ne'
    · exact hpos
  have hlen := length_numeral_le hp hpos
  rw [convText, digitLoop_eq hn hp]
  dsimp only
  rw [padLoop_eq (by omega), List.append_nil, places, Int.toNat_natCast, List.leftpad]
  congr 2
  omega

/-- Zero is nothing but padding. -/
theorem convText_zero (hd : digits ≤ p) :
    convText p 0 digits pad = List.replicate digits.toNat pad := by
  have hloop : digitLoop p 0 digits [] = (p, digits, []) := by cases p <;> rfl
  rw [convText, hloop]
  dsimp only
  rw [padLoop_eq hd, List.append_nil]

/-- A numeral is not empty. -/
theorem numeral_ne_nil (n : ℕ) : numeral 10 n ≠ [] := by
  rw [numeral]
  exact mt List.map_eq_nil_iff.1 (List.ne_nil_of_length_pos Nat.length_toDigits_pos)

/-- There is no zero in a numeral. -/
theorem zero_notMem_numeral (n : ℕ) : 0 ∉ numeral 10 n := by
  rw [numeral]
  intro h
  obtain ⟨c, hc, hz⟩ := List.mem_map.1 h
  have hdigit := Nat.isDigit_of_mem_toDigits (by decide) (by decide) hc
  have hrange : 48 ≤ c.toNat ∧ c.toNat ≤ 57 := by
    simpa [Char.isDigit, UInt32.le_iff_toNat_le] using hdigit
  have hbyte : (ch c).toNat = c.toNat % 256 := rfl
  rw [hz, Nat.mod_eq_of_lt (by omega)] at hbyte
  exact absurd hbyte.symm (by simp only [UInt8.toNat_zero]; omega)

/-- A padded numeral is not empty. -/
theorem places_ne_nil (k : ℕ) (pad : UInt8) (n : ℤ) : places k pad n ≠ [] := fun h =>
  numeral_ne_nil _ (List.append_eq_nil_iff.1 h).2

/-- There is no zero in a padded numeral. -/
theorem zero_notMem_places (hpad : pad ≠ 0) (n : ℤ) : 0 ∉ places k pad n := by
  rw [places, List.leftpad, List.mem_append, List.mem_replicate]
  rintro (⟨-, h⟩ | h)
  · exact hpad h.symm
  · exact zero_notMem_numeral _ h

/-- A number in range is written in its places, but for a zero that is padded with something
    else. -/
theorem convText_spec {m : ℤ} (h0 : 0 ≤ m) (hlt : m < 10 ^ p) (hpos : 0 < m ∨ 0 < digits)
    (hd : digits ≤ p)
    (hpad : pad ≠ 0) : 0 ∉ convText p m digits pad ∧
      (convText p m digits pad).length = (places digits.toNat pad m).length ∧
      (convText p m digits pad = places digits.toNat pad m ↔ 0 < m ∨ pad = ch '0') := by
  obtain ⟨n, rfl⟩ := Int.eq_ofNat_of_zero_le h0
  rcases Nat.eq_zero_or_pos n with rfl | hn
  · have hdigits : 0 < digits := hpos.resolve_left (lt_irrefl _)
    obtain ⟨k, hk⟩ : ∃ k, digits.toNat = k + 1 := ⟨digits.toNat - 1, by omega⟩
    have hplaces : places (k + 1) pad 0 = List.replicate k pad ++ [ch '0'] := rfl
    rw [Nat.cast_zero, convText_zero hd, hk, hplaces, List.replicate_succ']
    refine ⟨?_, by simp, ?_⟩
    · rw [← List.replicate_succ']
      exact fun h => hpad (List.eq_of_mem_replicate h).symm
    · rw [List.append_cancel_left_eq, List.singleton_inj]
      simp
  · rw [convText_of_pos hn (by exact_mod_cast hlt) hd]
    exact ⟨zero_notMem_places hpad _, rfl, iff_of_true rfl (.inl (by exact_mod_cast hn))⟩

/-! ## Weeks -/

/-- How many of the first `n` days are of one weekday. -/
theorem countP_mod_seven {r : ℕ} (hr : r < 7) (n : ℕ) :
    (List.range n).countP (fun d => d % 7 = r) = (n + 6 - r) / 7 := by
  induction n with
  | zero =>
    rw [List.range_zero, List.countP_nil]
    omega
  | succ n ih =>
    rw [List.range_succ, List.countP_append, ih, List.countP_singleton]
    split_ifs with h
    · have hmod : n % 7 = r := of_decide_eq_true h
      omega
    · have hmod : n % 7 ≠ r := fun hmod => h (decide_eq_true hmod)
      omega

/-- The days of the year that are of a day of the week are seven days apart. -/
theorem weeks_eq (ht : InRange t) {wday : ℤ} (h0 : 0 ≤ wday) (h7 : wday < 7) :
    (weeks t wday : ℤ) = (t.yday + 7 - (t.wday - wday) % 7) / 7 := by
  have hyday := ht.yday
  have hpred : ∀ d : ℕ, (t.wday - (t.yday - d)) % 7 = wday ↔
      d % 7 = ((wday - t.wday + t.yday) % 7).toNat := by
    intro d
    omega
  rw [weeks]
  simp only [hpred]
  rw [countP_mod_seven (by omega)]
  omega

/-! ## The texts of the pieces -/

/-- The text that a piece should have. -/
def Piece.doc (E : Env) : Piece → List UInt8
  | .text l => l
  | .number _ n digits pad => places digits.toNat pad n
  | .zone => intText (E.timezone.tdiv 3600)
  | .char c => [c]
  | .room => []

/-- In range, a name is taken from its table. -/
theorem name_eq {table : List (List UInt8)} {i m : ℤ} (hlen : (table.length : ℤ) = m + 1)
    (hi : 0 ≤ i ∧ i ≤ m) :
    name table i = .add (nameText table i) := if_neg (by omega)

/-- The hour of a clock with twelve. -/
theorem hour12_eq (ht : InRange t) : hour12 t = twelve t := by
  have hhour := ht.hour
  rw [hour12, twelve, Int.tmod_eq_emod_of_nonneg hhour.1]
  split_ifs <;> omega

/-- Before noon or after. -/
theorem half_eq (t : Tm) : (if t.hour ≥ 12 then lit "PM" else lit "AM") = halfText t := by
  rw [halfText]
  split_ifs <;> first | rfl | omega

/-- Weeks that begin with Sunday. -/
theorem week_sunday (ht : InRange t) : (t.yday + 7 - t.wday).tdiv 7 = weeks t 0 := by
  have hyday := ht.yday
  have hwday := ht.wday
  rw [weeks_eq ht le_rfl (by decide), Int.tdiv_eq_ediv_of_nonneg (by omega)]
  omega

/-- Weeks that begin with Monday. -/
theorem week_monday (ht : InRange t) :
    (t.yday + 7 - (if t.wday ≠ 0 then t.wday - 1 else 6)).tdiv 7 = weeks t 1 := by
  have hyday := ht.yday
  have hwday := ht.wday
  rw [weeks_eq ht (by decide) (by decide)]
  split_ifs with h
  · rw [Int.tdiv_eq_ediv_of_nonneg (by omega)]
    omega
  · rw [Int.tdiv_eq_ediv_of_nonneg (by omega)]
    omega

/-- The text of a list of pieces. -/
def textOf (E : Env) (xs : List Piece) : List UInt8 := xs.flatMap (Piece.doc E)

@[simp] theorem textOf_nil : textOf E [] = [] := rfl

@[simp] theorem textOf_cons (x : Piece) (xs : List Piece) :
    textOf E (x :: xs) = x.doc E ++ textOf E xs := rfl

@[simp] theorem textOf_append (xs ys : List Piece) :
    textOf E (xs ++ ys) = textOf E xs ++ textOf E ys :=
  List.flatMap_append ..

section InnerFormats

/-- `%T` and `%X`. -/
theorem textOf_time : textOf E (innerPieces E t (lit "%H:%M:%S")) = timeText t := by
  have hpieces : innerPieces E t (lit "%H:%M:%S") =
      [.number 8 t.hour 2 (ch '0'), .char (ch ':'), .number 8 t.min 2 (ch '0'), .char (ch ':'),
        .number 8 t.sec 2 (ch '0'), .room] := rfl
  rw [hpieces]
  simp [Piece.doc, timeText, two, lit]

/-- `%R`. -/
theorem textOf_minutes :
    textOf E (innerPieces E t (lit "%H:%M")) = two t.hour ++ lit ":" ++ two t.min := by
  have hpieces : innerPieces E t (lit "%H:%M") =
      [.number 8 t.hour 2 (ch '0'), .char (ch ':'), .number 8 t.min 2 (ch '0'), .room] := rfl
  rw [hpieces]
  simp [Piece.doc, two, lit]

/-- The year in its century. -/
theorem tmod_year (ht : InRange t) :
    (t.year + TM_YEAR_BASE).tmod 100 = (t.year + TM_YEAR_BASE) % 100 :=
  Int.tmod_eq_emod_of_nonneg ht.year.1

/-- `%D` and `%x`. -/
theorem textOf_date (ht : InRange t) :
    textOf E (innerPieces E t (lit "%m/%d/%y")) = dateText t := by
  have hpieces : innerPieces E t (lit "%m/%d/%y") =
      [.number 8 (t.mon + 1) 2 (ch '0'), .char (ch '/'), .number 8 t.mday 2 (ch '0'),
        .char (ch '/'), .number 8 ((t.year + TM_YEAR_BASE).tmod 100) 2 (ch '0'), .room] := rfl
  rw [hpieces, tmod_year ht]
  simp [Piece.doc, dateText, two, lit]

/-- The date and the time. -/
theorem textOf_dateTime (ht : InRange t) :
    textOf E (innerPieces E t (lit "%m/%d/%y %H:%M:%S")) = dateText t ++ lit " " ++ timeText t := by
  have hpieces : innerPieces E t (lit "%m/%d/%y %H:%M:%S") =
      [.number 8 (t.mon + 1) 2 (ch '0'), .char (ch '/'), .number 8 t.mday 2 (ch '0'),
        .char (ch '/'), .number 8 ((t.year + TM_YEAR_BASE).tmod 100) 2 (ch '0'), .char (ch ' ')] ++
          innerPieces E t (lit "%H:%M:%S") := rfl
  rw [hpieces, textOf_append, textOf_time, tmod_year ht]
  simp [Piece.doc, dateText, two, lit]

/-- `%r`. -/
theorem textOf_half (ht : InRange t) : textOf E (innerPieces E t (lit "%I:%M:%S %p")) =
    two (twelve t) ++ lit ":" ++ two t.min ++ lit ":" ++ two t.sec ++ lit " " ++ halfText t := by
  have hpieces : innerPieces E t (lit "%I:%M:%S %p") =
      [.number 8 (hour12 t) 2 (ch '0'), .char (ch ':'), .number 8 t.min 2 (ch '0'), .char (ch ':'),
        .number 8 t.sec 2 (ch '0'), .char (ch ' '),
        .text (if t.hour ≥ 12 then lit "PM" else lit "AM"), .room] := rfl
  rw [hpieces, hour12_eq ht, half_eq]
  simp [Piece.doc, two, lit]

/-- The whole of it. -/
theorem textOf_full (ht : InRange t) : textOf E (innerPieces E t (lit "%a %b %e %H:%M:%S %Y")) =
    nameText abrWeekDays t.wday ++ lit " " ++ nameText abrMonthNames t.mon ++ lit " " ++
      blank t.mday ++
      lit " " ++ timeText t ++ lit " " ++ yearText t := by
  have hpieces : innerPieces E t (lit "%a %b %e %H:%M:%S %Y") =
      (name abrWeekDays t.wday).pieces E (fun _ => []) (ch 'a') ++ .char (ch ' ') ::
        ((name abrMonthNames t.mon).pieces E (fun _ => []) (ch 'b') ++
          [.char (ch ' '), .number 8 t.mday 2 (ch ' '), .char (ch ' '),
            .number 8 t.hour 2 (ch '0'), .char (ch ':'), .number 8 t.min 2 (ch '0'), .char (ch ':'),
            .number 8 t.sec 2 (ch '0'), .char (ch ' '),
              .number 8 (t.year + TM_YEAR_BASE) 4 (ch '0'), .room]) := rfl
  rw [hpieces, name_eq (m := 6) rfl ht.wday, name_eq (m := 11) rfl ht.mon]
  simp [Directive.pieces, Piece.doc, timeText, yearText, two, blank, lit]

end InnerFormats

/-- The text of the pieces of a conversion. -/
theorem textOf_directive (ht : InRange t) (c : UInt8) :
    textOf E ((directive t c).pieces E (innerPieces E t) c) = documented E t c := by
  have hname : ∀ {table : List (List UInt8)} {i n : ℤ}, (table.length : ℤ) = n + 1 → 0 ≤ i ∧ i ≤ n →
      textOf E ((name table i).pieces E (innerPieces E t) c) = nameText table i := by
    intro table i n hlen hi
    rw [name_eq hlen hi]
    exact List.append_nil _
  have hnumber :
      ∀ n digits pad, textOf E ((Directive.conv n digits pad).pieces E (innerPieces E t) c) =
      places digits.toNat pad n := fun n digits pad => List.append_nil _
  have hsecs :
      textOf E (Directive.secs.pieces E (innerPieces E t) c) = numeral 10 E.mktime.toNat := by
    simp [Directive.pieces, Piece.doc, places]
  -- One case for each character of the two tables, in the order of the source.
  rw [directive, documented]
  generalize Char.ofNat c.toNat = x
  split
  · exact hname rfl ht.wday
  · exact hname rfl ht.wday
  · exact hname rfl ht.mon
  · exact hname rfl ht.mon
  · exact hname rfl ht.mon
  · exact textOf_full ht
  · exact textOf_dateTime ht
  · exact textOf_date ht
  · exact hnumber ..
  · exact hnumber ..
  · exact hnumber ..
  · exact hour12_eq ht ▸ hnumber ..
  · exact hnumber ..
  · exact hnumber ..
  · exact hour12_eq ht ▸ hnumber ..
  · exact hnumber ..
  · exact hnumber ..
  · rfl
  · exact half_eq t ▸ List.append_nil _
  · exact textOf_minutes
  · exact textOf_half ht
  · exact hnumber ..
  · exact hsecs
  · exact textOf_time
  · exact textOf_time
  · rfl
  · exact week_sunday ht ▸ hnumber ..
  · exact week_monday ht ▸ hnumber ..
  · exact hnumber ..
  · exact textOf_date ht
  · exact tmod_year ht ▸ hnumber ..
  · exact hnumber ..
  · exact List.append_nil _
  · -- The character itself.
    simp only [Directive.pieces, textOf_cons, textOf_nil, Piece.doc]
    simp [*]

/-- The pieces of a format have the text of the format. -/
theorem textOf_pieces (ht : InRange t) (cs : List UInt8) :
    textOf E (pieces E t cs) = expansion E t cs := by
  induction cs using expansion.induct with
  | case1 => rfl
  | case2 c => rfl
  | case3 c' cs ih =>
    rw [pieces, piecesLoop, if_pos rfl, textOf_append, textOf_directive ht, expansion, if_pos rfl]
    exact congrArg _ ih
  | case4 c c' cs hc ih =>
    rw [pieces, piecesLoop, if_neg hc, textOf_cons, expansion, if_neg hc]
    exact congrArg _ ih

/-! ## What the pieces are made of -/

/-- Texts that are not empty, and numbers of up to eight digits. -/
def Directive.Ok : Directive → Prop
  | .fail => False
  | .add s => 0 ∉ s ∧ s ≠ []
  | .conv n digits pad => 0 ≤ n ∧ n < 10 ^ 8 ∧ 0 < digits ∧ digits ≤ 8 ∧ pad ≠ 0
  | _ => True

/-- The same, of pieces. -/
def Piece.Ok : Piece → Prop
  | .text l => 0 ∉ l ∧ l ≠ []
  | .number p n digits pad => 0 ≤ n ∧ n < 10 ^ p ∧ (0 < n ∨ 0 < digits) ∧ digits ≤ p ∧ pad ≠ 0
  | .char c => c ≠ 0
  | _ => True

/-- A name from a table is not empty, and has no zero. -/
theorem name_ok {table : List (List UInt8)} {i m : ℤ} (hlen : (table.length : ℤ) = m + 1)
    (hi : 0 ≤ i ∧ i ≤ m)
    (htable : ∀ s ∈ table, 0 ∉ s ∧ s ≠ []) : (name table i).Ok := by
  rw [name_eq hlen hi]
  have hlt : i.toNat < table.length := by omega
  rw [nameText, List.getD_eq_getElem _ _ hlt]
  exact htable _ (List.getElem_mem hlt)

/-- With all fields in range, no conversion fails. -/
theorem directive_ok (ht : InRange t) (c : UInt8) : (directive t c).Ok := by
  obtain ⟨hsec, hmin, hhour, hmday, hmon, hyear, hwday, hyday⟩ := ht
  have h12 : 1 ≤ hour12 t ∧ hour12 t ≤ 12 := by
    rw [hour12, Int.tmod_eq_emod_of_nonneg hhour.1]
    split_ifs <;> omega
  have hhalf : 0 ∉ halfText t ∧ halfText t ≠ [] := by
    rw [halfText]
    split_ifs <;> exact ⟨by decide, by decide⟩
  have hsunday : 0 ≤ (t.yday + 7 - t.wday).tdiv 7 ∧ (t.yday + 7 - t.wday).tdiv 7 < 10 ^ 8 := by
    rw [Int.tdiv_eq_ediv_of_nonneg (by omega)]
    omega
  have hmonday : ∀ d, 0 ≤ d ∧ d ≤ 6 → 0 ≤ (t.yday + 7 - d).tdiv 7 ∧
      (t.yday + 7 - d).tdiv 7 < 10 ^ 8 := by
    intro d hd
    rw [Int.tdiv_eq_ediv_of_nonneg (by omega)]
    omega
  have hyy : 0 ≤ (t.year + TM_YEAR_BASE).tmod 100 ∧ (t.year + TM_YEAR_BASE).tmod 100 < 10 ^ 8 := by
    rw [Int.tmod_eq_emod_of_nonneg hyear.1]
    omega
  have hnumber : ∀ n digits pad, 0 ≤ n ∧ n < 10 ^ 8 → 0 < digits ∧ digits ≤ 8 ∧ pad ≠ 0 →
      (Directive.conv n digits pad).Ok := fun _ _ _ hn hd => ⟨hn.1, hn.2, hd⟩
  rw [directive]
  split
  -- The names.
  case h_1 | h_2 => exact name_ok rfl hwday (by decide)
  case h_3 | h_4 | h_5 => exact name_ok rfl hmon (by decide)
  -- The texts.
  case h_18 | h_26 => exact ⟨by decide, by decide⟩
  case h_19 => exact half_eq t ▸ hhalf
  -- The numbers, but for those that are divided.
  case h_9 | h_10 | h_11 | h_12 | h_13 | h_14 | h_15 | h_16 | h_17 | h_22 | h_29 | h_32 =>
    exact hnumber _ _ _ (by omega) (by decide)
  case h_27 => exact hnumber _ _ _ hsunday (by decide)
  case h_28 => exact hnumber _ _ _ (hmonday _ (by split_ifs <;> omega)) (by decide)
  case h_31 => exact hnumber _ _ _ hyy (by decide)
  all_goals trivial

/-- The pieces of a conversion, with its character. -/
theorem Directive.Ok.pieces {inner : List UInt8 → List Piece} {d : Directive} (hd : d.Ok)
    (hc : c ≠ 0)
    (hinner : ∀ f, d = .format f → ∀ x ∈ inner f, x.Ok) : ∀ x ∈ d.pieces E inner c, x.Ok := by
  cases d with
  | fail => exact hd.elim
  | add s => exact List.forall_mem_singleton.2 hd
  | conv n digits pad =>
    obtain ⟨h0, hlt, hpos, hle, hpad⟩ := hd
    exact List.forall_mem_singleton.2 ⟨h0, hlt, .inr hpos, hle, hpad⟩
  | format f => exact hinner f rfl
  | secs =>
    -- A number of up to ten digits, which the array has room for.
    have hlt := E.mktime_lt
    exact List.forall_mem_singleton.2
      ⟨E.mktime_pos.le, by omega, .inl E.mktime_pos, by decide, by decide⟩
  | zone => exact List.forall_mem_singleton.2 trivial
  | char => exact List.forall_mem_singleton.2 hc

/-- All pieces of a format are as they should be, if those of the inner formats are. -/
theorem ok_piecesLoop {inner : List UInt8 → List Piece} (ht : InRange t) (hcs : 0 ∉ cs)
    (hinner : ∀ c ∈ cs, ∀ f, directive t c = .format f → ∀ x ∈ inner f, x.Ok) :
    ∀ x ∈ piecesLoop E t inner cs, x.Ok := by
  induction cs using piecesLoop.induct with
  | case1 => simp [piecesLoop, Piece.Ok]
  | case2 c => simpa [piecesLoop, Piece.Ok, eq_comm] using hcs
  | case3 c' cs ih =>
    rw [piecesLoop, if_pos rfl]
    intro x hx
    rcases List.mem_append.1 hx with hx | hx
    · exact (directive_ok ht c').pieces (fun h => hcs (by simp [h])) (hinner c' (by simp)) x hx
    · exact ih (fun h => hcs (by simp [h])) (fun c hc => hinner c (by simp [hc])) x hx
  | case4 c c' cs hc ih =>
    rw [piecesLoop, if_neg hc]
    intro x hx
    rcases List.mem_cons.1 hx with rfl | hx
    · exact fun h => hcs (by simp [h])
    · exact ih (fun h => hcs (List.mem_cons_of_mem c h))
        (fun c hc => hinner c (List.mem_cons_of_mem _ hc)) x hx

/-- The pieces of a format in range. -/
theorem ok_pieces (ht : InRange t) (hcs : 0 ∉ cs) : ∀ x ∈ pieces E t cs, x.Ok := by
  refine ok_piecesLoop ht hcs fun c _ f hf => ?_
  have hinner := (directive_eq_format hf).2
  have hzero : ∀ f ∈ innerFormats, 0 ∉ f := by decide
  exact ok_piecesLoop ht (hzero f hinner) fun c hc f' hf' =>
    absurd hf' (innerFormats_plain hinner hc f')

end Strftime

end DemoOs
