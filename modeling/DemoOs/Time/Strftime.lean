import DemoOs.Lib.Cursor
import DemoOs.Stdio.Printk
import DemoOs.Time.TmTime

/-!
# Formatting the time

`strftime.c`, and `asctime_r`. Texts are written at `pt`, as long as there is room for them
(`gsize`). `_conv` and `_secs` put the digits of a number into an array on the stack, of which the
last byte is never written: the text they write goes on with what the stack holds. `%Z` is written
with `sprintf`, which does not look at the room.

The switch of `_format` is a table here (`directive`), and some formats are expanded by formats in
which there are no such conversions again (`format_eq`). So a format is a list of pieces, which are
written one after the other (`pieces`, `format_eq_run`).
-/

namespace DemoOs

namespace Strftime

open Printk (ch lit numeral intText)

def TM_YEAR_BASE : ℤ := 1900

def weekDays : List (List UInt8) :=
  ["Sunday", "Monday", "Tuesday", "Wednesday", "Thursday", "Friday", "Saturday"].map lit

def abrWeekDays : List (List UInt8) := ["Sun", "Mon", "Tue", "Wed", "Thu", "Fri", "Sat"].map lit

def monthNames : List (List UInt8) :=
  ["January", "February", "March", "April", "May", "June", "July", "August", "September",
    "October", "November", "December"].map lit

def abrMonthNames : List (List UInt8) :=
  ["Jan", "Feb", "Mar", "Apr", "May", "Jun", "Jul", "Aug", "Sep", "Oct", "Nov", "Dec"].map lit

/-- What else a call depends on. -/
structure Env where
  timezone : ℤ
  /-- What `mktime` returns, which has no body: seconds since the epoch. -/
  mktime : ℤ
  mktime_pos : 0 < mktime
  mktime_lt : mktime < 2 ^ 31
  /-- What the stack holds behind the digits, in each call of `_conv` and `_secs`. -/
  stack : ℕ → ℕ → UInt8

/-- The memory with `pt`, the room, and how many calls of `_conv` and `_secs` there have been. -/
structure State extends Cursor UInt8 where
  gsize : ℕ
  frames : ℕ

/-- A string in memory. -/
def cstr (l : List UInt8) : ℕ → UInt8 := fun i => l.getD i 0

/-- A string that is not terminated. -/
def behind (l : List UInt8) (rest : ℕ → UInt8) : ℕ → UInt8 :=
  fun i => l.getD i (rest (i - l.length))

/-- The loop of `_add`. -/
def addLoop (str : ℕ → UInt8) : ℕ → Cursor UInt8 → Bool × ℕ × Cursor UInt8
  | 0, c => (false, 0, c)
  | gsize + 1, c =>
    if str 0 = 0 then (true, gsize + 1, c.store 0)
      else addLoop (fun i => str (i + 1)) gsize (c.put (str 0))

/-- The loop that puts the digits, from `tmpBuffer + p` downwards. -/
def digitLoop : ℕ → ℤ → ℤ → List UInt8 → ℕ × ℤ × List UInt8
  | 0, _, digits, text => (0, digits, text)
  | p + 1, n, digits, text =>
    if n > 0 then digitLoop p (n / 10) (digits - 1)
      (UInt8.ofNat ((n % 10).toNat + '0'.toNat) :: text)
    else (p + 1, digits, text)

/-- The loop that puts the padding in front of them. -/
def padLoop (pad : UInt8) : ℕ → ℤ → List UInt8 → List UInt8
  | 0, _, text => text
  | p + 1, digits, text => if digits > 0 then padLoop pad p (digits - 1) (pad :: text) else text

/-- The text of a number, up to the last byte of an array of `p + 2`. -/
def convText (p : ℕ) (n digits : ℤ) (pad : UInt8) : List UInt8 :=
  let (p, digits, text) := digitLoop p n digits []
  padLoop pad p digits text

namespace State

/-- `_add`. -/
def add (o : State) (str : ℕ → UInt8) : Bool × State :=
  let (b, gsize, c) := addLoop str o.gsize o.toCursor
  (b, { o with gsize, toCursor := c })

/-- The digits are added, with what is behind them. -/
def addNumber (E : Env) (text : List UInt8) (o : State) : Bool × State :=
  { o with frames := o.frames + 1 }.add (behind text (E.stack o.frames))

/-- `_conv`, with an array of 10. -/
def conv (E : Env) (n digits : ℤ) (pad : UInt8) (o : State) : Bool × State :=
  o.addNumber E (convText 8 n digits pad)

/-- `_secs`, with an array of 15 and no padding. -/
def secs (E : Env) (o : State) : Bool × State := o.addNumber E (convText 13 E.mktime 0 (ch '0'))

/-- `pt += sprintf(pt, "%d", …)`: the numeral and a zero. -/
def sprintf (o : State) (n : ℤ) : State :=
  { o with toCursor := (o.toCursor.putAll (intText n)).store 0 }

/-- `if(!gsize--) return(0); *pt++ = *format;`. -/
def putChar (o : State) (c : UInt8) : Bool × State :=
  match o.gsize with
  | 0 => (false, { o with gsize := 2 ^ 32 - 1 })
  | gsize + 1 => (true, { o with gsize, toCursor := o.toCursor.put c })

end State

/-- What the switch does with a conversion: it returns 0, adds a text, a number or what another
    format gives, or goes on to put the character itself. -/
inductive Directive
  | fail
  | add (s : List UInt8)
  | conv (n digits : ℤ) (pad : UInt8)
  | format (f : List UInt8)
  | secs
  | zone
  | char

/-- A name from a table, if the field is in its range. -/
def name (table : List (List UInt8)) (i : ℤ) : Directive :=
  if i < 0 ∨ i > table.length - 1 then .fail else .add (table.getD i.toNat [])

/-- `t->tm_hour % 12 ? t->tm_hour % 12 : 12`. -/
def hour12 (t : Tm) : ℤ := if t.hour.tmod 12 ≠ 0 then t.hour.tmod 12 else 12

/-- The switch. -/
def directive (t : Tm) (c : UInt8) : Directive :=
  match Char.ofNat c.toNat with
  | 'A' => name weekDays t.wday
  | 'a' => name abrWeekDays t.wday
  | 'B' => name monthNames t.mon
  | 'b' => name abrMonthNames t.mon
  | 'h' => name abrMonthNames t.mon
  -- Formats within formats are expanded by a call of their own.
  | 'C' => .format (lit "%a %b %e %H:%M:%S %Y")
  | 'c' => .format (lit "%m/%d/%y %H:%M:%S")
  | 'D' => .format (lit "%m/%d/%y")
  | 'd' => .conv t.mday 2 (ch '0')
  | 'e' => .conv t.mday 2 (ch ' ')
  | 'H' => .conv t.hour 2 (ch '0')
  | 'I' => .conv (hour12 t) 2 (ch '0')
  | 'j' => .conv (t.yday + 1) 3 (ch '0')
  | 'k' => .conv t.hour 2 (ch ' ')
  | 'l' => .conv (hour12 t) 2 (ch ' ')
  | 'M' => .conv t.min 2 (ch '0')
  | 'm' => .conv (t.mon + 1) 2 (ch '0')
  | 'n' => .add (lit "\n")
  | 'p' => .add (if t.hour ≥ 12 then lit "PM" else lit "AM")
  | 'R' => .format (lit "%H:%M")
  | 'r' => .format (lit "%I:%M:%S %p")
  | 'S' => .conv t.sec 2 (ch '0')
  | 's' => .secs
  | 'T' => .format (lit "%H:%M:%S")
  | 'X' => .format (lit "%H:%M:%S")
  | 't' => .add (lit "\t")
  | 'U' => .conv ((t.yday + 7 - t.wday).tdiv 7) 2 (ch '0')
  | 'W' => .conv ((t.yday + 7 - (if t.wday ≠ 0 then t.wday - 1 else 6)).tdiv 7) 2 (ch '0')
  | 'w' => .conv t.wday 1 (ch '0')
  | 'x' => .format (lit "%m/%d/%y")
  | 'y' => .conv ((t.year + TM_YEAR_BASE).tmod 100) 2 (ch '0')
  | 'Y' => .conv (t.year + TM_YEAR_BASE) 4 (ch '0')
  | 'Z' => .zone
  | _ => .char

/-- What comes after a success. -/
def andThen (r : Bool × State) (f : State → Bool × State) : Bool × State := if r.1 then f r.2 else r

/-- A conversion, with the character of it. -/
def State.execute (E : Env) (format : List UInt8 → State → Bool × State) (c : UInt8) (o : State) :
    Directive → Bool × State
  | .fail => (false, o)
  | .add s => o.add (cstr s)
  | .conv n digits pad => o.conv E n digits pad
  | .format f => format f o
  | .secs => o.secs E
  | .zone => (true, o.sprintf (E.timezone.tdiv 3600))
  | .char => o.putChar c

/-- The loop of `_format`, which calls itself as `format`. A `%` at the end is put as it is. -/
def formatLoop (E : Env) (t : Tm) (format : List UInt8 → State → Bool × State) :
    List UInt8 → State → Bool × State
  | [], o => (o.gsize ≠ 0, o)
  | [c], o => andThen (o.putChar c) fun o => (o.gsize ≠ 0, o)
  | c :: c' :: cs, o =>
    if c = ch '%' then andThen (o.execute E format c' (directive t c')) (formatLoop E t format cs)
    else andThen (o.putChar c) (formatLoop E t format (c' :: cs))

/-- `_format`, for the formats of the switch, none of which has a conversion that calls it. -/
def innerFormat (E : Env) (t : Tm) : List UInt8 → State → Bool × State :=
  formatLoop E t fun _ o => (false, o)

/-- `_format`, whether it does not return 0. -/
def format (E : Env) (t : Tm) : List UInt8 → State → Bool × State :=
  formatLoop E t (innerFormat E t)

/-- `strftime`: what it returns, and the memory. -/
def strftime (E : Env) (c : Cursor UInt8) (maxsize : ℕ) (fmt : List UInt8) (t : Tm) :
    ℕ × Cursor UInt8 :=
  if maxsize < 1 then (0, c)
  else
    let (b, o) := format E t fmt { toCursor := c, gsize := maxsize, frames := 0 }
    if b then (maxsize - o.gsize, o.toCursor.store 0) else (0, o.toCursor)

/-- `sizeof(ASCBUF)`. -/
def sizeofASCBUF : ℕ := 27

/-- `asctime_r`: whether it does not return null. The format ends at its first zero. -/
def asctime_r (E : Env) (c : Cursor UInt8) (t : Tm) : Bool × Cursor UInt8 :=
  let (size, c) := strftime E c sizeofASCBUF (lit "%a %b %d %H:%M:%S %Y\n") t
  (size ≠ 0, c)

variable {E : Env} {t : Tm} {o : State} {c : UInt8} {cs f : List UInt8}

/-! ## The formats of the switch -/

/-- The conversions that are expanded by a format. -/
def expanding : List Char := ['C', 'c', 'D', 'R', 'r', 'T', 'X', 'x']

def innerFormats : List (List UInt8) :=
  [lit "%a %b %e %H:%M:%S %Y", lit "%m/%d/%y %H:%M:%S", lit "%m/%d/%y", lit "%H:%M",
    lit "%I:%M:%S %p", lit "%H:%M:%S"]

/-- A name is no format. -/
theorem name_ne_format (table : List (List UInt8)) (i : ℤ) (f : List UInt8) :
    name table i ≠ .format f := by
  rw [name]
  split_ifs <;> exact Directive.noConfusion

/-- Only the eight conversions that are expanded have a format, and one of seven. -/
theorem directive_eq_format (h : directive t c = .format f) :
    Char.ofNat c.toNat ∈ expanding ∧ f ∈ innerFormats := by
  rw [directive] at h
  split at h <;> first
    | exact absurd h (name_ne_format _ _ f)
    | exact absurd h Directive.noConfusion
    | (rename_i hc
       rw [hc, ← Directive.format.inj h]
       decide)

/-- There is no such conversion in these formats. -/
theorem innerFormats_plain (hf : f ∈ innerFormats) (hc : c ∈ f) (f' : List UInt8) :
    directive t c ≠ .format f' := by
  have hplain : ∀ f ∈ innerFormats, ∀ c ∈ f, Char.ofNat c.toNat ∉ expanding := by decide +kernel
  exact fun h => hplain f hf c hc (directive_eq_format h).1

/-! ## Pieces -/

/-- What is written at once, or the test for room at the end of a format. -/
inductive Piece
  | text (l : List UInt8)
  | number (p : ℕ) (n digits : ℤ) (pad : UInt8)
  | zone
  | char (c : UInt8)
  | room

def Piece.write (E : Env) (o : State) : Piece → Bool × State
  | .text l => o.add (cstr l)
  | .number p n digits pad => o.addNumber E (convText p n digits pad)
  | .zone => (true, o.sprintf (E.timezone.tdiv 3600))
  | .char c => o.putChar c
  | .room => (o.gsize ≠ 0, o)

/-- Writing one piece after the other. -/
def run (E : Env) : List Piece → State → Bool × State
  | [], o => (true, o)
  | x :: xs, o => andThen (x.write E o) (run E xs)

/-- The pieces of a conversion, with its character. -/
def Directive.pieces (E : Env) (inner : List UInt8 → List Piece) (c : UInt8) :
    Directive → List Piece
  | .fail => []
  | .add s => [.text s]
  | .conv n digits pad => [.number 8 n digits pad]
  | .format f => inner f
  | .secs => [.number 13 E.mktime 0 (ch '0')]
  | .zone => [.zone]
  | .char => [.char c]

def piecesLoop (E : Env) (t : Tm) (inner : List UInt8 → List Piece) : List UInt8 → List Piece
  | [] => [.room]
  | [c] => [.char c, .room]
  | c :: c' :: cs =>
    if c = ch '%' then (directive t c').pieces E inner c' ++ piecesLoop E t inner cs
    else .char c :: piecesLoop E t inner (c' :: cs)

def innerPieces (E : Env) (t : Tm) : List UInt8 → List Piece := piecesLoop E t fun _ => []

/-- The pieces of a format. -/
def pieces (E : Env) (t : Tm) : List UInt8 → List Piece := piecesLoop E t (innerPieces E t)

/-! ## The recursion -/

/-- What a conversion does depends on what its own format does only. -/
theorem execute_congr {F F' : List UInt8 → State → Bool × State}
    (h : ∀ f, directive t c = .format f → F f = F' f) :
    o.execute E F c (directive t c) = o.execute E F' c (directive t c) := by
  cases hd : directive t c with
  | format f => exact congrFun (h f hd) o
  | _ => rfl

/-- What the loop does depends on the formats in it only. -/
theorem formatLoop_congr {F F' : List UInt8 → State → Bool × State}
    (h : ∀ c ∈ cs, ∀ f, directive t c = .format f → F f = F' f) :
    formatLoop E t F cs = formatLoop E t F' cs := by
  funext o
  induction cs using piecesLoop.induct generalizing o with
  | case1 => rfl
  | case2 c => rfl
  | case3 c' cs ih =>
    rw [formatLoop, formatLoop, if_pos rfl, if_pos rfl, execute_congr (h c' (by simp))]
    exact congrArg _ (funext (ih fun c hc => h c (by simp [hc])))
  | case4 c c' cs hc ih =>
    rw [formatLoop, formatLoop, if_neg hc, if_neg hc]
    exact congrArg _ (funext (ih fun c hc => h c (by simp [hc])))

/-- `_format` as it calls itself. -/
theorem format_eq (E : Env) (t : Tm) : format E t = formatLoop E t (format E t) := by
  funext cs
  refine formatLoop_congr fun c _ f hf => ?_
  exact formatLoop_congr fun c hc f' hf' =>
    absurd hf' (innerFormats_plain (directive_eq_format hf).2 hc f')

/-- One after the other, however they are grouped. -/
theorem andThen_assoc (r : Bool × State) (f g : State → Bool × State) :
    andThen (andThen r f) g = andThen r fun o => andThen (f o) g := by
  rcases r with ⟨_ | _, o⟩ <;> rfl

/-- Pieces are written one after the other. -/
theorem run_append (xs ys : List Piece) (o : State) :
    run E (xs ++ ys) o = andThen (run E xs o) (run E ys) := by
  induction xs generalizing o with
  | nil => rfl
  | cons x xs ih =>
    rw [List.cons_append, run, run, andThen_assoc]
    exact congrArg _ (funext ih)

/-- One piece. -/
theorem run_singleton (x : Piece) (o : State) : run E [x] o = x.write E o := by
  rw [run]
  rcases x.write E o with ⟨_ | _, o⟩ <;> rfl

/-- A format whose conversions do not fail is the list of its pieces. -/
theorem formatLoop_eq_run {F : List UInt8 → State → Bool × State} {P : List UInt8 → List Piece}
    (hfail : ∀ c, directive t c ≠ .fail)
    (h : ∀ c ∈ cs, ∀ f, directive t c = .format f → ∀ o, F f o = run E (P f) o) (o : State) :
    formatLoop E t F cs o = run E (piecesLoop E t P cs) o := by
  induction cs using piecesLoop.induct generalizing o with
  | case1 => exact (run_singleton .room o).symm
  | case2 c =>
    rw [formatLoop, piecesLoop, run]
    exact congrArg _ (funext fun o => (run_singleton .room o).symm)
  | case3 c' cs ih =>
    rw [formatLoop, piecesLoop, if_pos rfl, if_pos rfl, run_append]
    have hrest : formatLoop E t F cs = run E (piecesLoop E t P cs) :=
      funext fun o => ih (fun c hc => h c (by simp [hc])) o
    rw [hrest]
    congr 1
    cases hd : directive t c' with
    | fail => exact absurd hd (hfail c')
    | format f => exact h c' (by simp) f hd o
    | _ =>
      rw [Directive.pieces, run_singleton]
      rfl
  | case4 c c' cs hc ih =>
    rw [formatLoop, piecesLoop, if_neg hc, if_neg hc, run]
    exact congrArg _ (funext fun o => ih (fun c hc => h c (by simp [hc])) o)

/-- If no field is out of its range, a format is written as the pieces it is made of. -/
theorem format_eq_run (hfail : ∀ c, directive t c ≠ .fail) (cs : List UInt8) (o : State) :
    format E t cs o = run E (pieces E t cs) o := by
  refine formatLoop_eq_run hfail (fun c _ f hf o => ?_) o
  exact formatLoop_eq_run hfail
    (fun c hc f' hf' => absurd hf' (innerFormats_plain (directive_eq_format hf).2 hc f')) o

end Strftime

end DemoOs
