import DemoOs.Stdio.LongHex

/-!
# Formats

The interpreter of formats (`vprintf`) goes through the format character by character. A format is
the list of its characters, without the zero that ends it; past this zero nothing may be read.

What is printed for a format is its `expansion`, and how it ends is found by `scan`: at the zero, at
a conversion that is not supported, or past the zero, as `%ll` skips the character behind it
whatever it is. An expansion that ends at the zero is put out as a whole, one that ends at a
conversion that is not supported up to the last multiple of 64 characters (`vprintf_eq`).
-/

namespace DemoOs

namespace Printk

/-- An argument, by the type it is taken as. -/
structure VaArg where
  word : BitVec 32
  dword : BitVec 64
  str : CStr

/-- How `vprintf` ends: it returns a number at the end of the format, or -1 at a conversion that is
    not supported, or it goes on past the zero that ends the format. -/
inductive Outcome
  | returned (n : ℤ) (file : SFile)
  | unsupported (file : SFile)
  | overrun (file : SFile)

/-- The conversions of one character, but for `%%` and those that begin with `l`. -/
def conversion (c : UInt8) : Option (VaArg → Print) :=
  if c = ch 'd' then some fun a => print_int a.word
  else if c = ch 'u' then some fun a => print_ulong a.word.toNat 10
  else if c = ch 'x' then some fun a => print_ulong a.word.toNat 16
  else if c = ch 'p' then some fun a => print_pointer a.word
  else if c = ch 's' then some fun a => print_str a.str
  else none

/-- Those behind `l`, but for a second `l`. -/
def longConversion (c : UInt8) : Option (VaArg → Print) :=
  if c = ch 'd' then some fun a => print_int a.word
  else if c = ch 'u' then some fun a => print_ulong a.word.toNat 10
  else if c = ch 'x' then some fun a => print_ulong a.word.toNat 16
  else none

/-- The loop of `vprintf`: the rest of the format, `formatting`, the number of arguments taken, `n`,
    and the file. -/
def vprintfLoop (ap : ℕ → VaArg) : List UInt8 → Bool → ℕ → ℕ → SFile → Option Outcome
  | [], _, _, n, res => do
    let res ← res.my_fflush
    some (.returned (sint n) res)
  | c :: format, false, k, n, res =>
    if c = ch '%' then vprintfLoop ap format true k n res
    else do
      let res ← res.my_putc c
      vprintfLoop ap format false k (word (n + 1)) res
  | c :: format, true, k, n, res =>
    if c = ch '%' then do
      let res ← res.my_putc (ch '%')
      vprintfLoop ap format false k (word (n + 1)) res
    else if c = ch 'l' then
      match format with
      | [] => some (.unsupported res)
      | c :: format =>
        if c = ch 'l' then
          match format with
          -- `format += 2`, with the zero behind the second `l`.
          | [] => some (.overrun res)
          | c :: format =>
            if c = ch 'x' then do
              let (m, res) ← print_ullong (ap k).dword.toNat 16 res
              vprintfLoop ap format false (k + 1) (word (n + m)) res
            else vprintfLoop ap format false k n res
        else match longConversion c with
          | some print => do
            let (m, res) ← print (ap k) res
            vprintfLoop ap format false (k + 1) (word (n + m)) res
          | none => some (.unsupported res)
    else match conversion c with
      | some print => do
        let (m, res) ← print (ap k) res
        vprintfLoop ap format false (k + 1) (word (n + m)) res
      | none => some (.unsupported res)

/-- `vprintf`, with what happens to be in the buffer. Without a format, nothing is done. -/
def vprintf (buff : Fin (MY_BUF_SIZE + 1) → UInt8) (format : Option (List UInt8)) (ap : ℕ → VaArg) :
    Option Outcome :=
  match format with
  | none => some (.returned 0 ⟨buff, 0, []⟩)
  | some format => vprintfLoop ap format false 0 0 ⟨buff, 0, []⟩

/-! ## Expansions -/

/-- The text of a conversion. -/
def conversionText (c : UInt8) : Option (VaArg → List UInt8) :=
  if c = ch 'd' then some fun a => intText a.word.toInt
  else if c = ch 'u' then some fun a => numeral 10 a.word.toNat
  else if c = ch 'x' then some fun a => numeral 16 a.word.toNat
  else if c = ch 'p' then some fun a => pointerText a.word
  else if c = ch 's' then some fun a => a.str.1
  else none

def longConversionText (c : UInt8) : Option (VaArg → List UInt8) :=
  if c = ch 'd' then some fun a => intText a.word.toInt
  else if c = ch 'u' then some fun a => numeral 10 a.word.toNat
  else if c = ch 'x' then some fun a => numeral 16 a.word.toNat
  else none

/-- Where the interpretation of a format ends. -/
inductive Ending
  | zero
  | unsupported
  | pastZero
  deriving DecidableEq

/-- The end of a format, behind a `%` or not. -/
def scan : List UInt8 → Bool → Ending
  | [], _ => .zero
  | c :: format, false => scan format (c = ch '%')
  | c :: format, true =>
    if c = ch '%' then scan format false
    else if c = ch 'l' then
      match format with
      | [] => .unsupported
      | c :: format =>
        if c = ch 'l' then
          match format with
          | [] => .pastZero
          | _ :: format => scan format false
        else if (longConversionText c).isSome then scan format false
        else .unsupported
    else if (conversionText c).isSome then scan format false
    else .unsupported

/-- What is printed up to there. -/
def expansion (ap : ℕ → VaArg) : List UInt8 → Bool → ℕ → List UInt8
  | [], _, _ => []
  | c :: format, false, k =>
    if c = ch '%' then expansion ap format true k else c :: expansion ap format false k
  | c :: format, true, k =>
    if c = ch '%' then ch '%' :: expansion ap format false k
    else if c = ch 'l' then
      match format with
      | [] => []
      | c :: format =>
        if c = ch 'l' then
          match format with
          | [] => []
          | c :: format =>
            if c = ch 'x' then ullongText (ap k).dword.toNat ++ expansion ap format false (k + 1)
            else expansion ap format false k
        else match longConversionText c with
          | some text => text (ap k) ++ expansion ap format false (k + 1)
          | none => []
    else match conversionText c with
      | some text => text (ap k) ++ expansion ap format false (k + 1)
      | none => []

/-! ## The interpreter -/

variable {ap : ℕ → VaArg} {format l text : List UInt8} {f : Bool} {k n a b : ℕ} {c : UInt8}
    {e : Ending}
  {res : SFile} {o : Option Outcome} {buff : Fin (MY_BUF_SIZE + 1) → UInt8} {t : VaArg → List UInt8}

theorem longConversion_of_some (h : longConversionText c = some t) :
    ∃ print, longConversion c = some print ∧ ∀ a, Emits (print a) (t a) := by
  rw [longConversionText] at h
  rw [longConversion]
  split_ifs at h ⊢
  · obtain rfl := Option.some.inj h
    exact ⟨_, rfl, fun a => print_int_emits a.word⟩
  · obtain rfl := Option.some.inj h
    exact ⟨_, rfl, fun a => print_ulong_emits a.word.isLt (.inl rfl)⟩
  · obtain rfl := Option.some.inj h
    exact ⟨_, rfl, fun a => print_ulong_emits a.word.isLt (.inr rfl)⟩

theorem longConversion_of_none (h : longConversionText c = none) : longConversion c = none := by
  rw [longConversionText] at h
  rw [longConversion]
  split_ifs at h ⊢
  rfl

theorem conversion_of_some (h : conversionText c = some t) :
    ∃ print, conversion c = some print ∧ ∀ a, Emits (print a) (t a) := by
  rw [conversionText] at h
  rw [conversion]
  split_ifs at h ⊢
  · obtain rfl := Option.some.inj h
    exact ⟨_, rfl, fun a => print_int_emits a.word⟩
  · obtain rfl := Option.some.inj h
    exact ⟨_, rfl, fun a => print_ulong_emits a.word.isLt (.inl rfl)⟩
  · obtain rfl := Option.some.inj h
    exact ⟨_, rfl, fun a => print_ulong_emits a.word.isLt (.inr rfl)⟩
  · obtain rfl := Option.some.inj h
    exact ⟨_, rfl, fun a => print_pointer_emits a.word⟩
  · obtain rfl := Option.some.inj h
    exact ⟨_, rfl, fun a => print_str_emits a.str⟩

theorem conversion_of_none (h : conversionText c = none) : conversion c = none := by
  rw [conversionText] at h
  rw [conversion]
  split_ifs at h ⊢
  rfl

/-- The interpretation ends in this way, with `n` characters, and this text: it is out, or has been
    put. -/
def Ends : Ending → ℕ → List UInt8 → Option Outcome → Prop
  | .zero, n, text, o => ∃ res, o = some (.returned (sint n) res) ∧ res.out.flatten = text
  | .unsupported, _, text, o => ∃ res, o = some (.unsupported res) ∧ Staged res text
  | .pastZero, _, text, o => ∃ res, o = some (.overrun res) ∧ Staged res text

/-- Only the number of characters modulo `2^32` matters. -/
theorem Ends.of_word (h : Ends e (word a + b) text o) : Ends e (a + b) text o := by
  cases e with
  | zero =>
    obtain ⟨res, ho, hout⟩ := h
    refine ⟨res, ?_, hout⟩
    have hsint : sint ((word a + b : ℕ) : ℤ) = sint ((a + b : ℕ) : ℤ) := by
      rw [sint, sint, word]
      omega
    rw [ho, hsint]
  | unsupported => exact h
  | pastZero => exact h

/-- What is emitted, and what comes after it. -/
theorem Ends.of_emits {print : Print} {rest : List UInt8} {next : ℕ → SFile → Option Outcome}
    (h : Staged res l)
    (hp : Emits print text)
    (hrest : ∀ m res', Staged res' (l ++ text) →
      Ends e (m + rest.length) (l ++ text ++ rest) (next m res')) :
    Ends e (n + (text ++ rest).length) (l ++ (text ++ rest))
      (do let (m, res) ← print res; next (word (n + m)) res) := by
  obtain ⟨res', hprint, h'⟩ := hp res l h
  have hends := hrest (word (n + word text.length)) res' h'
  rw [hprint, Option.bind_eq_bind, Option.bind_some]
  dsimp only
  rw [word_add] at hends ⊢
  rw [List.length_append, ← Nat.add_assoc, ← List.append_assoc]
  exact hends.of_word

/-- A character, and what comes after it. -/
theorem Ends.putc {rest : List UInt8} {next : ℕ → SFile → Option Outcome} (h : Staged res l)
    (hc : c ≠ 0)
    (hrest : ∀ m res', Staged res' (l ++ [c]) →
      Ends e (m + rest.length) (l ++ [c] ++ rest) (next m res')) :
    Ends e (n + (c :: rest).length) (l ++ c :: rest)
      (do let res ← res.my_putc c; next (word (n + 1)) res) := by
  obtain ⟨res', hput, h'⟩ := h.my_putc hc
  have hends := (hrest (word (n + 1)) res' h').of_word
  rw [List.append_assoc, List.singleton_append, Nat.add_assoc, Nat.add_comm 1] at hends
  rw [hput, Option.bind_eq_bind, Option.bind_some, List.length_cons]
  exact hends

/-- The interpreter puts the expansion, and ends where the scan does. -/
theorem vprintfLoop_ends (hformat : 0 ∉ format) (h : Staged res l) :
    Ends (scan format f) (n + (expansion ap format f k).length) (l ++ expansion ap format f k)
      (vprintfLoop ap format f k n res) := by
  induction format, f using scan.induct generalizing k n res l with
  | case1 f =>
    -- The zero, also behind a `%`: what is staged is put out.
    obtain ⟨res', hflush, -, hout⟩ := h.flush
    rw [expansion, List.append_nil, List.length_nil, Nat.add_zero]
    exact ⟨res', by rw [vprintfLoop, hflush]; rfl, hout⟩
  | case2 c format ih =>
    obtain ⟨hc, hformat⟩ := not_or.1 (mt List.mem_cons.2 hformat)
    rw [scan, expansion, vprintfLoop]
    by_cases hpercent : c = ch '%'
    · rw [if_pos hpercent, if_pos hpercent]
      simpa only [hpercent, decide_true] using ih hformat h
    · rw [if_neg hpercent, if_neg hpercent]
      refine Ends.putc h (Ne.symm hc) fun m res' h' => ?_
      simpa only [hpercent, decide_false] using ih hformat h'
  | case3 format ih =>
    rw [scan.eq_def, expansion.eq_def, vprintfLoop.eq_def]
    dsimp only
    rw [if_pos rfl, if_pos rfl, if_pos rfl]
    exact Ends.putc h (by decide) fun m res' h' => ih (List.not_mem_of_not_mem_cons hformat) h'
  | case4 hl =>
    -- `%l` at the end.
    rw [scan, expansion, vprintfLoop, if_neg hl, if_neg hl, if_neg hl, if_pos rfl,
      if_pos rfl, if_pos rfl]
    exact ⟨res, rfl, by rwa [List.append_nil]⟩
  | case5 hl =>
    -- `%ll` at the end, where the zero is skipped.
    simp only [scan, expansion, vprintfLoop, if_neg hl, if_pos]
    exact ⟨res, rfl, by rwa [List.append_nil]⟩
  | case6 c format hl ih =>
    -- `%ll` skips the character behind it, and prints if it is an `x`.
    have hformat : 0 ∉ format :=
      fun hmem =>
        hformat (List.mem_cons_of_mem _ (List.mem_cons_of_mem _ (List.mem_cons_of_mem _ hmem)))
    simp only [scan, expansion, vprintfLoop, if_neg hl, if_pos]
    by_cases hx : c = ch 'x'
    · rw [if_pos hx, if_pos hx]
      exact Ends.of_emits h (print_ullong_emits (ap k).dword.isLt) fun m res' h' => ih hformat h'
    · rw [if_neg hx, if_neg hx]
      exact ih hformat h
  | case7 c format hc hsome hl ih =>
    -- `%l` and a conversion that is supported, then one that is not; and the same without `l`.
    have hformat : 0 ∉ format :=
      fun hmem => hformat (List.mem_cons_of_mem _ (List.mem_cons_of_mem _ hmem))
    obtain ⟨t, ht⟩ := Option.isSome_iff_exists.1 hsome
    obtain ⟨print, hprint, hemits⟩ := longConversion_of_some ht
    rw [scan.eq_def, expansion.eq_def, vprintfLoop.eq_def]
    simp only [if_neg hl, if_pos, if_neg hc, ht, hprint, Option.isSome_some]
    exact Ends.of_emits h (hemits (ap k)) fun m res' h' => ih hformat h'
  | case8 c format hc hnone hl =>
    have ht : longConversionText c = none := Option.not_isSome_iff_eq_none.1 hnone
    rw [scan.eq_def, expansion.eq_def, vprintfLoop.eq_def]
    simp only [if_neg hl, if_pos, if_neg hc, ht, longConversion_of_none ht, Option.isSome_none]
    exact ⟨res, rfl, by rwa [List.append_nil]⟩
  | case9 c format hpercent hl hsome ih =>
    obtain ⟨t, ht⟩ := Option.isSome_iff_exists.1 hsome
    obtain ⟨print, hprint, hemits⟩ := conversion_of_some ht
    rw [scan.eq_def, expansion.eq_def, vprintfLoop.eq_def]
    simp only [if_neg hpercent, if_neg hl, ht, hprint, Option.isSome_some, if_pos]
    exact Ends.of_emits h (hemits (ap k)) fun m res' h' =>
      ih (List.not_mem_of_not_mem_cons hformat) h'
  | case10 c format hpercent hl hnone =>
    have ht : conversionText c = none := Option.not_isSome_iff_eq_none.1 hnone
    rw [scan.eq_def, expansion.eq_def, vprintfLoop.eq_def]
    simp only [if_neg hpercent, if_neg hl, ht, conversion_of_none ht, Option.isSome_none]
    exact ⟨res, rfl, by rwa [List.append_nil]⟩

theorem vprintf_ends (buff : Fin (MY_BUF_SIZE + 1) → UInt8) (format : CStr) (ap : ℕ → VaArg) :
    Ends (scan format.1 false) (expansion ap format.1 false 0).length
      (expansion ap format.1 false 0)
      (vprintf buff (some format.1) ap) := by
  have hstart : Staged ⟨buff, 0, []⟩ [] := ⟨Nat.succ_pos 63, ⟨0, rfl⟩, rfl, List.not_mem_nil⟩
  have hends : Ends _ (0 + (expansion ap format.1 false 0).length) ([] ++ _) _ :=
    vprintfLoop_ends (f := false) (n := 0) format.2 hstart
  rwa [Nat.zero_add, List.nil_append] at hends

/-! ## Safety -/

/-- The interpretation ends within the format, and if it ends at a conversion that is not supported,
    what comes before this conversion is out. -/
def Safe (format : CStr) (ap : ℕ → VaArg) : Option Outcome → Prop
  | some (.returned _ _) => True
  | some (.unsupported res) => res.out.flatten = expansion ap format.1 false 0
  | some (.overrun _) => False
  | none => False

/-- All characters that have been put are out just if their number is a multiple of 64. -/
theorem Staged.flatten_eq_iff (h : Staged res l) : res.out.flatten = l ↔
    MY_BUF_SIZE ∣ l.length := by
  have hlen := res.length_staged (Nat.le_succ_of_le h.pos_lt.le)
  have hpos := h.pos_lt
  constructor
  · exact fun heq => heq ▸ h.dvd
  · intro hdvd
    rw [← h.eq, List.length_append, hlen, ← Nat.dvd_add_iff_right h.dvd] at hdvd
    have hzero := Nat.eq_zero_of_dvd_of_lt hdvd hpos
    rw [← h.eq, hzero, List.take_zero, List.append_nil]

/-- A format is safe just if it does not end in `%ll`, and if a multiple of 64 characters comes
    before a conversion that is not supported. -/
theorem safe_iff (buff : Fin (MY_BUF_SIZE + 1) → UInt8) (format : CStr) (ap : ℕ → VaArg) :
    Safe format ap (vprintf buff (some format.1) ap) ↔ scan format.1 false = .zero ∨
      scan format.1 false = .unsupported ∧
        MY_BUF_SIZE ∣ (expansion ap format.1 false 0).length := by
  have hends := vprintf_ends buff format ap
  cases hscan : scan format.1 false with
  | zero =>
    rw [hscan] at hends
    obtain ⟨res, hres, -⟩ := hends
    rw [hres]
    exact iff_of_true trivial (.inl rfl)
  | unsupported =>
    rw [hscan] at hends
    obtain ⟨res, hres, hstaged⟩ := hends
    rw [hres, Safe, hstaged.flatten_eq_iff]
    simp
  | pastZero =>
    rw [hscan] at hends
    obtain ⟨res, hres, -⟩ := hends
    rw [hres, Safe]
    simp

/-- Arguments that are zero. -/
def noArgs (_ : ℕ) : VaArg := ⟨0, 0, ⟨[], List.not_mem_nil⟩⟩

/-- `%ll` at the end is passed together with the zero, and the characters before `%c` are lost. -/
theorem not_safe :
    ¬Safe ⟨lit "%ll", by decide⟩ noArgs (vprintf (fun _ => 0) (some (lit "%ll")) noArgs) ∧
      ¬Safe ⟨lit "ab%c", by decide⟩ noArgs (vprintf (fun _ => 0) (some (lit "ab%c")) noArgs) := by
  constructor
  · exact id
  · intro h
    exact absurd (show [] = lit "ab" from h) (by decide)

end Printk

end DemoOs
