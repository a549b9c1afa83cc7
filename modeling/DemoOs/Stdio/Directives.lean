import DemoOs.Stdio.Formats

/-!
# Directives

A format that is made of ordinary characters and the conversions `%%`, `%d`, `%u`, `%x`, `%p`, `%s`,
`%ld`, `%lu` and `%lx` is a list of directives. What `vprintf` prints for it is what the directives
stand for, one after the other (`vprintf_format`). The number of characters is returned as an `int`:
from `2^31` on, it is not that number (`not_counted`).
-/

namespace DemoOs

namespace Printk

/-- The parts of a format. -/
inductive Directive
  | ordinary (c : {c : UInt8 // c ≠ 0 ∧ c ≠ ch '%'})
  | percent
  | decimal
  | unsigned
  | hex
  | pointer
  | string
  | longDecimal
  | longUnsigned
  | longHex

namespace Directive

/-- How it is written. -/
def text : Directive → List UInt8
  | ordinary c => [c.1]
  | percent => lit "%%"
  | decimal => lit "%d"
  | unsigned => lit "%u"
  | hex => lit "%x"
  | pointer => lit "%p"
  | string => lit "%s"
  | longDecimal => lit "%ld"
  | longUnsigned => lit "%lu"
  | longHex => lit "%lx"

/-- How many arguments it takes. -/
def args : Directive → ℕ
  | ordinary _ => 0
  | percent => 0
  | _ => 1

/-- What it stands for. -/
def expand : Directive → VaArg → List UInt8
  | ordinary c, _ => [c.1]
  | percent, _ => lit "%"
  | decimal, a | longDecimal, a => intText a.word.toInt
  | unsigned, a | longUnsigned, a => numeral 10 a.word.toNat
  | hex, a | longHex, a => numeral 16 a.word.toNat
  | pointer, a => pointerText a.word
  | string, a => a.str.1

/-- What the directives stand for, the arguments from `k` on being left. -/
def expandAll (ap : ℕ → VaArg) : List Directive → ℕ → List UInt8
  | [], _ => []
  | d :: ds, k => d.expand (ap k) ++ expandAll ap ds (k + d.args)

theorem zero_notMem_text (d : Directive) : 0 ∉ d.text := by
  cases d with
  | ordinary c => simpa [text] using c.2.1.symm
  | _ => decide

/-- The format. -/
def format (ds : List Directive) : CStr :=
  ⟨ds.flatMap text, fun h => by
    obtain ⟨d, -, hd⟩ := List.mem_flatMap.1 h
    exact d.zero_notMem_text hd⟩

variable {ds : List Directive} {rest : List UInt8} {ap : ℕ → VaArg} {k n : ℕ}

/-- A directive is read as a whole. -/
theorem scan_text (d : Directive) : scan (d.text ++ rest) false = scan rest false := by
  cases d with
  | ordinary c => rw [text, List.singleton_append, scan, decide_eq_false c.2.2]
  | longDecimal | longUnsigned | longHex =>
    change scan (_ :: _ :: _ :: rest) false = _
    rw [scan, scan.eq_def]
    rfl
  | _ =>
    change scan (_ :: _ :: rest) false = _
    rw [scan, scan.eq_def]
    rfl

theorem expansion_text (d : Directive) :
    expansion ap (d.text ++ rest) false k = d.expand (ap k) ++
      expansion ap rest false (k + d.args) := by
  cases d with
  | ordinary c => 
    rw [text, List.singleton_append, expansion, if_neg c.2.2]
    rfl
  | longDecimal | longUnsigned | longHex =>
    change expansion ap (_ :: _ :: _ :: rest) false k = _
    rw [expansion, expansion.eq_def]
    rfl
  | _ =>
    change expansion ap (_ :: _ :: rest) false k = _
    rw [expansion, expansion.eq_def]
    rfl

theorem scan_format (ds : List Directive) : scan (format ds).1 false = .zero := by
  induction ds with
  | nil => rfl
  | cons d ds ih => exact (scan_text d).trans ih

theorem expansion_format (ap : ℕ → VaArg) (ds : List Directive) (k : ℕ) :
    expansion ap (format ds).1 false k = expandAll ap ds k := by
  induction ds generalizing k with
  | nil => rfl
  | cons d ds ih => exact (expansion_text d).trans (congrArg _ (ih _))

/-- What the directives stand for is put out, the buffer not being left, and the number of its
    characters is returned as a 32-bit integer. -/
theorem vprintf_format (buff : Fin (MY_BUF_SIZE + 1) → UInt8) (ap : ℕ → VaArg)
    (ds : List Directive) :
    ∃ res, vprintf buff (some (format ds).1) ap =
      some (.returned (sint (expandAll ap ds 0).length) res) ∧
      res.out.flatten = expandAll ap ds 0 := by
  have hends := vprintf_ends buff (format ds) ap
  rwa [scan_format, expansion_format] at hends

/-- The letter `a`. -/
def letter : Directive := .ordinary ⟨ch 'a', by decide⟩

theorem length_expandAll_letters (n k : ℕ) :
    (expandAll ap (List.replicate n letter) k).length = n := by
  induction n generalizing k with
  | zero => rfl
  | succ n ih => rw [List.replicate_succ, expandAll, List.length_append, ih]; exact Nat.add_comm 1 n

/-- So many letters are printed, but their number is not returned if it is not an `int`. -/
theorem not_counted_of_ne (hn : sint n ≠ n) :
    ¬∃ res, vprintf (fun _ => 0) (some (format (List.replicate n letter)).1) noArgs =
      some (.returned (expandAll noArgs (List.replicate n letter) 0).length res) := by
  rintro ⟨res, hres⟩
  have hends := vprintf_ends (fun _ => 0) (format (List.replicate n letter)) noArgs
  rw [scan_format, expansion_format] at hends
  obtain ⟨res', hres', -⟩ := hends
  have hret := (Outcome.returned.inj (Option.some.inj (hres.symm.trans hres'))).1
  rw [length_expandAll_letters] at hret
  exact hn hret.symm

/-- With `2^31` letters, the number that is returned is negative. -/
theorem not_counted :
    ¬∃ res, vprintf (fun _ => 0) (some (format (List.replicate (2 ^ 31) letter)).1) noArgs =
      some (.returned (expandAll noArgs (List.replicate (2 ^ 31) letter) 0).length res) :=
  not_counted_of_ne (by decide)

end Directive

end Printk

end DemoOs
