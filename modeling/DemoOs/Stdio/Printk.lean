import DemoOs.Lib.Numeral
import DemoOs.Types
import DemoOs.Vfs.Strings
import Mathlib.Data.List.OfFn
import Mathlib.Tactic.IntervalCases

/-!
# Printing

`printk.cpp`. Characters go to a buffer (`my_putc`), which is put out when there are 64 of them, and
at the end (`my_fflush`). The numbers are printed from their digits, which are found from the end.

What has been put so far is a list of characters: those that are out, in strings of 64, and those
that are staged in the buffer (`Staged`). A function *emits* a text if it puts this text, whatever
there was before, and returns the number of its characters (`Emits`); the functions of this module
emit what they should (`print_ulong_emits` and those after it).
-/

namespace DemoOs

namespace Printk

/-- The byte of a character. -/
def ch (c : Char) : UInt8 := c.toUInt8

def MY_BUF_SIZE : ℕ := 64

/-- `__hexChars`. -/
def hexChars : List UInt8 := "0123456789abcdef".toList.map ch

/-- `s_file`, and the strings that have been passed to `debugConsole.puts`. -/
structure SFile where
  buff : Fin (MY_BUF_SIZE + 1) → UInt8
  pos : ℕ
  out : List (List UInt8)

/-- The string at the beginning of a buffer. -/
def cString (buff : Fin (MY_BUF_SIZE + 1) → UInt8) : List UInt8 :=
  (List.ofFn buff).takeWhile (· ≠ 0)

namespace SFile

/-- `file->buff[file->pos] = c`. There is no result if the index is not one of the array. -/
def store (file : SFile) (c : UInt8) : Option SFile :=
  if h : file.pos < MY_BUF_SIZE + 1 then
    some { file with buff := Function.update file.buff ⟨file.pos, h⟩ c }
  else none

def my_fflush (file : SFile) : Option SFile := do
  let file ← file.store 0
  some { file with out := file.out ++ [cString file.buff], pos := 0 }

def my_putc (c : UInt8) (file : SFile) : Option SFile := do
  let file ← file.store c
  let file := { file with pos := word (file.pos + 1) }
  if file.pos = MY_BUF_SIZE then file.my_fflush else some file

/-- Putting one character after the other. -/
def putAll (file : SFile) : List UInt8 → Option SFile
  | [] => some file
  | c :: cs => do
    let file ← file.my_putc c
    file.putAll cs

end SFile

/-- The number of characters printed, and the file after it. -/
abbrev Print := SFile → Option (ℕ × SFile)

/-- `print_ulong`. The digits are stored in an array of 11 integers, from the last one on. -/
def print_ulong (val ulBase : ℕ) : Print := fun file =>
  if ulBase ≠ 10 ∧ ulBase ≠ 16 then some (0, file)
  else if val = 0 then do
    let file ← file.my_putc (ch '0')
    some (1, file)
  else do
    let digits ← Numeral.divisions ulBase 11 val []
    let chars ← digits.mapM fun d => hexChars[d]?
    let file ← file.putAll chars
    some (digits.length, file)

/-- The loop of `print_ullong`, which puts a zero for every zero digit of `lower` from the first one
    on, and is left after so many of them. -/
def padLoop (lower : ℕ) : ℕ → ℕ → Print
  | 0, _, file => some (0, file)
  | n + 1, mask, file =>
    if mask &&& lower = 0 then do
      let file ← file.my_putc (ch '0')
      let (count, file) ← padLoop lower n (mask >>> 4) file
      some (word (1 + count), file)
    else some (0, file)

def print_ullong (val ulBase : ℕ) : Print := fun file =>
  if ulBase ≠ 16 then some (0, file)
  else
    let upper := val >>> 32
    let lower := word val
    if upper > 0 then do
      let (c, file) ← print_ulong upper ulBase file
      let (z, file) ← padLoop lower 6 0xF0000000 file
      let (c', file) ← print_ulong lower ulBase file
      some (word (word (c + z) + c'), file)
    else print_ulong lower ulBase file

def print_str (str : CStr) : Print := fun file => do
  let file ← file.putAll str.1
  some (word str.1.length, file)

/-- `%d` and `%ld`. -/
def print_int (x : BitVec 32) : Print := fun file =>
  if x.toInt < 0 then do
    let file ← file.my_putc (ch '-')
    let (n, file) ← print_ulong (-x).toNat 10 file
    some (word (1 + n), file)
  else print_ulong x.toNat 10 file

/-- A literal. -/
def lit (s : String) : List UInt8 := s.toList.map ch

/-- `%p`. -/
def print_pointer (p : BitVec 32) : Print := fun file =>
  if p = 0 then print_str ⟨lit "(nil)", by decide⟩ file
  else do
    let (c, file) ← print_str ⟨lit "0x", by decide⟩ file
    let (c', file) ← print_ulong p.toNat 16 file
    some (word (c + c'), file)

/-! ## What is put -/

/-- The characters `l` have been put: those that are out, by 64, and those in the buffer. -/
structure Staged (file : SFile) (l : List UInt8) : Prop where
  pos_lt : file.pos < MY_BUF_SIZE
  dvd : MY_BUF_SIZE ∣ file.out.flatten.length
  eq : file.out.flatten ++ (List.ofFn file.buff).take file.pos = l
  ne_zero : 0 ∉ l

/-- A text is put, and its characters are counted. -/
def Emits (p : Print) (text : List UInt8) : Prop :=
  ∀ file l, Staged file l → ∃ file', p file = some (word text.length, file') ∧
    Staged file' (l ++ text)

/-- The numeral of `n`. -/
def numeral (b n : ℕ) : List UInt8 := (Nat.toDigits b n).map ch

variable {file file' : SFile} {l text text' : List UInt8} {c : UInt8} {b n : ℕ}

theorem ofFn_update {α : Type*} (f : Fin n → α) (i : Fin n) (x : α) :
    List.ofFn (Function.update f i x) = (List.ofFn f).take i ++ x ::
      (List.ofFn f).drop (i + 1) := by
  have hset : List.ofFn (Function.update f i x) = (List.ofFn f).set i x := by
    refine List.ext_getElem (by simp) fun j hj _ => ?_
    rw [List.getElem_ofFn, List.getElem_set, List.getElem_ofFn, Function.update_apply]
    simp only [Fin.ext_iff, eq_comm]
  rw [hset, List.set_eq_take_append_cons_drop, if_pos (by simp)]

/-- A character is stored behind those that are staged. -/
theorem SFile.store_eq (h : file.pos < MY_BUF_SIZE + 1) (c : UInt8) :
    ∃ file', file.store c = some file' ∧ file'.pos = file.pos ∧ file'.out = file.out ∧
      ∃ rest, List.ofFn file'.buff = (List.ofFn file.buff).take file.pos ++ c :: rest :=
  ⟨_, dif_pos h, rfl, rfl, _, ofFn_update _ _ _⟩

/-- What is staged is put out. -/
theorem SFile.my_fflush_eq (h : file.pos < MY_BUF_SIZE + 1)
    (hne : 0 ∉ (List.ofFn file.buff).take file.pos) :
    ∃ file', file.my_fflush = some file' ∧ file'.pos = 0 ∧
      file'.out.flatten = file.out.flatten ++ (List.ofFn file.buff).take file.pos := by
  obtain ⟨file₁, hstore, hpos, hout, rest, hbuff⟩ := SFile.store_eq h 0
  refine ⟨{ file₁ with out := file₁.out ++ [cString file₁.buff], pos := 0 }, ?_, rfl, ?_⟩
  · rw [my_fflush, hstore]
    rfl
  · have hall : ∀ x ∈ (List.ofFn file.buff).take file.pos, decide (x ≠ 0) = true := fun x hx =>
      decide_eq_true fun h₀ => hne (h₀ ▸ hx)
    rw [List.flatten_append, hout, List.flatten_singleton, cString, hbuff,
      List.takeWhile_append_of_pos hall, List.takeWhile_cons_of_neg (by simp), List.append_nil]

theorem Staged.flush (h : Staged file l) :
    ∃ file', file.my_fflush = some file' ∧ file'.pos = 0 ∧ file'.out.flatten = l := by
  have hne : 0 ∉ (List.ofFn file.buff).take file.pos := fun hmem =>
    h.ne_zero (h.eq ▸ List.mem_append_right _ hmem)
  obtain ⟨file', hflush, hpos, hout⟩ := SFile.my_fflush_eq (Nat.lt_succ_of_lt h.pos_lt) hne
  exact ⟨file', hflush, hpos, hout.trans h.eq⟩

/-- What is staged has the length it should have. -/
theorem SFile.length_staged (file : SFile) (h : file.pos ≤ MY_BUF_SIZE + 1) :
    ((List.ofFn file.buff).take file.pos).length = file.pos := by
  rw [List.length_take, List.length_ofFn, Nat.min_eq_left h]

/-- Wherever the buffer stands, a character is put behind the others. -/
theorem Staged.my_putc (h : Staged file l) (hc : c ≠ 0) :
    ∃ file', file.my_putc c = some file' ∧ Staged file' (l ++ [c]) := by
  have hpos := h.pos_lt
  obtain ⟨file₁, hstore, hpos₁, hout₁, rest, hbuff⟩ := SFile.store_eq (Nat.lt_succ_of_lt hpos) c
  have hword : word (file₁.pos + 1) = file.pos + 1 := by
    rw [hpos₁, word_eq (lt_of_le_of_lt hpos (by decide))]
  have hlen := file.length_staged (Nat.le_succ_of_le hpos.le)
  -- The characters staged, with the new one.
  have htake :
      (List.ofFn file₁.buff).take (file.pos + 1) = (List.ofFn file.buff).take file.pos ++ [c] := by
    rw [hbuff, List.take_append, hlen, Nat.add_sub_cancel_left, List.take_take,
      Nat.min_eq_right (Nat.le_succ _)]
    rfl
  have hne : 0 ∉ l ++ [c] := by
    rw [List.mem_append, List.mem_singleton]
    exact fun hmem => hmem.elim h.ne_zero hc.symm
  have heq : file₁.out.flatten ++ (List.ofFn file₁.buff).take (file.pos + 1) = l ++ [c] := by
    rw [hout₁, htake, ← List.append_assoc, h.eq]
  rw [SFile.my_putc, hstore, Option.bind_eq_bind, Option.bind_some]
  dsimp only
  rw [hword]
  by_cases hfull : file.pos + 1 = MY_BUF_SIZE
  · rw [if_pos hfull]
    have hstaged : 0 ∉ (List.ofFn file₁.buff).take (file.pos + 1) := fun hmem =>
      hne (heq ▸ List.mem_append_right _ hmem)
    have hpos₂ : ({ file₁ with pos := file.pos + 1 } : SFile).pos < MY_BUF_SIZE + 1 := by
      dsimp only
      omega
    obtain ⟨file', hflush, hpos', hout'⟩ := SFile.my_fflush_eq hpos₂ hstaged
    refine ⟨file', hflush, ?_, ?_, ?_, hne⟩
    · rw [hpos']
      decide
    · rw [hout', hout₁, htake, List.length_append, List.length_append, hlen,
        List.length_singleton, hfull]
      exact Nat.dvd_add h.dvd (dvd_refl _)
    · rw [hpos', List.take_zero, List.append_nil, hout', heq]
  · rw [if_neg hfull]
    refine ⟨_, rfl, lt_of_le_of_ne hpos hfull, ?_, heq, hne⟩
    dsimp only
    rw [hout₁]
    exact h.dvd

theorem Staged.putAll (h : Staged file l) (htext : 0 ∉ text) :
    ∃ file', file.putAll text = some file' ∧ Staged file' (l ++ text) := by
  induction text generalizing file l with
  | nil => exact ⟨file, rfl, by rwa [List.append_nil]⟩
  | cons c text ih =>
    obtain ⟨hc, htext⟩ := not_or.1 (mt List.mem_cons.2 htext)
    obtain ⟨file₁, hput, h₁⟩ := h.my_putc (Ne.symm hc)
    obtain ⟨file', hall, h'⟩ := ih h₁ htext
    refine ⟨file', ?_, by rwa [List.append_assoc] at h'⟩
    rw [SFile.putAll, hput, Option.bind_eq_bind, Option.bind_some, hall]

/-! ## What is emitted -/

theorem word_add_word (a b : ℕ) : word (word a + word b) = word (a + b) := (Nat.add_mod a b _).symm

theorem word_add (a b : ℕ) : word (a + word b) = word (a + b) := by
  rw [word, word, word, Nat.add_mod_mod]

/-- The characters of numerals are those of the table. -/
theorem hexChars_getElem? (hd : n < 16) : hexChars[n]? = some (ch (Nat.digitChar n)) := by
  interval_cases n <;> rfl

theorem hexChars_mapM {ds : List ℕ} (hds : ∀ d ∈ ds, d < 16) :
    ds.mapM (fun d => hexChars[d]?) = some ((ds.map Nat.digitChar).map ch) := by
  induction ds with
  | nil => rfl
  | cons d ds ih =>
    obtain ⟨hd, hds⟩ := List.forall_mem_cons.1 hds
    rw [List.mapM_cons, hexChars_getElem? hd, ih hds]
    rfl

theorem ch_digitChar_ne_zero (hd : n < 16) : ch (Nat.digitChar n) ≠ 0 := by
  interval_cases n <;> decide

theorem print_str_emits (str : CStr) : Emits (print_str str) str.1 := by
  intro file l h
  obtain ⟨file', hall, h'⟩ := h.putAll str.2
  exact ⟨file', by rw [print_str, hall]; rfl, h'⟩

/-- A word is printed as its numeral; the array is long enough for the digits. -/
theorem print_ulong_emits (hn : n < 2 ^ 32) (hb : b = 10 ∨ b = 16) :
    Emits (print_ulong n b) (numeral b n) := by
  intro file l h
  have hbase : ¬(b ≠ 10 ∧ b ≠ 16) := by omega
  rw [print_ulong, if_neg hbase]
  rcases Nat.eq_zero_or_pos n with rfl | hpos
  · obtain ⟨file', hput, h'⟩ := h.my_putc (c := ch '0') (by decide)
    refine ⟨file', ?_, ?_⟩
    · rw [if_pos rfl, hput, numeral, Nat.toDigits_zero]
      rfl
    · rwa [numeral, Nat.toDigits_zero]
  · -- Eleven divisions are enough for a word in both bases.
    have hroom : n < b ^ 11 := by
      rcases hb with rfl | rfl
      · exact hn.trans (by norm_num)
      · exact hn.trans (by norm_num)
    obtain ⟨ds, hds, hmap, hlt⟩ := @Numeral.divisions_eq b 11 n [] (by omega) hpos hroom
    rw [List.append_nil] at hds
    have hlt16 : ∀ d ∈ ds, d < 16 := fun d hd => (hlt d hd).trans_le (by omega)
    have hne : 0 ∉ (ds.map Nat.digitChar).map ch := by
      rw [List.map_map]
      intro hmem
      obtain ⟨d, hd, hzero⟩ := List.mem_map.1 hmem
      exact ch_digitChar_ne_zero (hlt16 d hd) hzero
    obtain ⟨file', hall, h'⟩ := h.putAll hne
    have hlen : ds.length = (numeral b n).length := by
      rw [numeral, ← hmap, List.length_map, List.length_map]
    have hle : (numeral b n).length ≤ 11 := by
      rw [numeral, List.length_map]
      exact (Nat.length_toDigits_le_iff (by omega) (by decide)).2 hroom
    refine ⟨file', ?_, ?_⟩
    · simp only [if_neg hpos.ne', hds, Option.bind_eq_bind, Option.bind_some,
        hexChars_mapM hlt16, hall]
      rw [hlen, word_eq (by omega)]
    · rwa [numeral, ← hmap]

/-- One text after the other, the numbers of their characters being added as words. -/
theorem Emits.append {p p' : Print} (h : Emits p text) (h' : Emits p' text') :
    Emits (fun file => do
      let (c, file) ← p file
      let (c', file) ← p' file
      some (word (c + c'), file)) (text ++ text') := by
  intro file l hl
  obtain ⟨file₁, hp, h₁⟩ := h file l hl
  obtain ⟨file₂, hp', h₂⟩ := h' file₁ _ h₁
  refine ⟨file₂, ?_, by rwa [List.append_assoc] at h₂⟩
  simp only [hp, hp', Option.bind_eq_bind, Option.bind_some]
  rw [word_add_word, List.length_append]

/-- The decimal numeral of an integer, with its sign. -/
def intText (x : ℤ) : List UInt8 :=
  if x < 0 then ch '-' :: numeral 10 x.natAbs else numeral 10 x.natAbs

/-- An integer is printed with its sign, the least one too, whose negation is itself. -/
theorem print_int_emits (x : BitVec 32) : Emits (print_int x) (intText x.toInt) := by
  have hx := x.isLt
  have hint := BitVec.toInt_eq_toNat_cond x
  intro file l h
  rw [print_int, intText]
  by_cases hneg : x.toInt < 0
  · have habs : (-x).toNat = x.toInt.natAbs := by
      rw [BitVec.toNat_neg]
      split_ifs at hint <;> omega
    obtain ⟨file₁, hput, h₁⟩ := h.my_putc (c := ch '-') (by decide)
    obtain ⟨file', hprint, h'⟩ := print_ulong_emits (-x).isLt (.inl rfl) file₁ _ h₁
    refine ⟨file', ?_, by rwa [if_pos hneg, ← habs, List.append_cons]⟩
    simp only [if_pos hneg, hput, hprint, Option.bind_eq_bind, Option.bind_some]
    rw [word_add, ← habs, List.length_cons, Nat.add_comm]
  · have habs : x.toNat = x.toInt.natAbs := by split_ifs at hint <;> omega
    rw [if_neg hneg, if_neg hneg, ← habs]
    exact print_ulong_emits hx (.inl rfl) file l h

/-- The hexadecimal numeral of an address, or `(nil)`. -/
def pointerText (p : BitVec 32) : List UInt8 :=
  if p = 0 then lit "(nil)" else lit "0x" ++ numeral 16 p.toNat

theorem print_pointer_emits (p : BitVec 32) : Emits (print_pointer p) (pointerText p) := by
  by_cases hp : p = 0
  · rw [pointerText, if_pos hp]
    exact fun file l h => by rw [print_pointer, if_pos hp]; exact print_str_emits _ file l h
  · rw [pointerText, if_neg hp]
    have happ :=
      (print_str_emits ⟨lit "0x", by decide⟩).append (print_ulong_emits p.isLt (.inr rfl))
    exact fun file l h => by rw [print_pointer, if_neg hp]; exact happ file l h

end Printk

end DemoOs
