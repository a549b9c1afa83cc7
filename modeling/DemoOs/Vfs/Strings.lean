import DemoOs.Bytes

/-!
# Strings

The string functions of the C library (`strlen.cpp`, `strncmp.cpp`, `strchr.cpp`, `strrchr.cpp`). A
string is the list of its bytes, none of them zero, without the zero that ends it. A pointer into a
string is what is left of it from there on: `++s` is `s.tail`, and reading at the end gives the zero
(`deref`).
-/

namespace DemoOs

/-- The strings. -/
abbrev CStr := {s : List UInt8 // 0 ∉ s}

namespace CStr

/-- A literal, by its characters. -/
def ofChars (cs : List Char) (h : 0 ∉ cs.map Char.toUInt8) : CStr := ⟨cs.map Char.toUInt8, h⟩

/-- `*s`. -/
def deref (s : List UInt8) : UInt8 := s.headD 0

def strlen (s : List UInt8) : ℕ := s.length

/-- Up to `len` bytes are compared, as the signed numbers that `char` is here. -/
def strncmp : List UInt8 → List UInt8 → ℕ → ℤ
  | _, _, 0 => 0
  | s₁, s₂, len + 1 =>
    if deref s₁ = 0 ∧ deref s₂ = 0 then 0
    else if (deref s₁).toInt8 < (deref s₂).toInt8 then -1
    else if (deref s₂).toInt8 < (deref s₁).toInt8 then 1
    else strncmp s₁.tail s₂.tail len

/-- The loop runs as long as the byte it reads *is* zero (`while(!*s)`). So it is left at once, and
    a null pointer returned, for any string but the empty one. There, it goes on beyond the end of
    the string (none), unless that end was looked for. -/
def strchr (s : List UInt8) (c : UInt8) : Option (Option (List UInt8)) :=
  if deref s = 0 then if deref s = c then some (some s) else none
  else some none

/-- The loop of `strrchr`, with the last place where the byte was found. -/
def strrchrLoop (ch : UInt8) : List UInt8 → Option (List UInt8) → Option (List UInt8)
  | [], pos => pos
  | c :: s, pos => strrchrLoop ch s (if c = ch then some (c :: s) else pos)

def strrchr (s : List UInt8) (ch : UInt8) : Option (List UInt8) := strrchrLoop ch s none

/-- `PATH_SEPARATOR`. -/
def pathSeparator : UInt8 := 47

variable {s s₁ s₂ : List UInt8} {c : UInt8} {len : ℕ}

@[simp] theorem deref_cons : deref (c :: s) = c := rfl

theorem deref_eq_zero_iff (hs : 0 ∉ s) : deref s = 0 ↔ s = [] := by
  cases s with
  | nil => simp [deref]
  | cons a s => simpa [deref] using fun h : a = 0 => hs (by simp [h])

theorem not_mem_tail (hs : 0 ∉ s) : 0 ∉ s.tail := fun h => hs (List.mem_of_mem_tail h)

/-- Whatever the order of the bytes, the comparison goes on where they are equal. -/
theorem strncmp_succ_eq_zero_iff : strncmp s₁ s₂ (len + 1) = 0 ↔
    (deref s₁ = 0 ∧ deref s₂ = 0) ∨ (deref s₁ = deref s₂ ∧ strncmp s₁.tail s₂.tail len = 0) := by
  have hne {a b : UInt8} (h : a.toInt8 < b.toInt8) : a ≠ b := fun heq => Int8.lt_irrefl (heq ▸ h)
  rw [strncmp]
  split_ifs with hend hlt hgt
  · exact iff_of_true rfl (.inl hend)
  · exact iff_of_false (by decide) (not_or.2 ⟨hend, fun h => hne hlt h.1⟩)
  · exact iff_of_false (by decide) (not_or.2 ⟨hend, fun h => hne hgt h.1.symm⟩)
  · have heq : deref s₁ = deref s₂ :=
      congrArg Int8.toUInt8 (Int8.le_antisymm (Int8.not_lt.1 hgt) (Int8.not_lt.1 hlt))
    rw [or_iff_right hend, and_iff_right heq]

/-- Strings compare equal if they agree in the bytes compared. -/
theorem strncmp_eq_zero_iff (h₁ : 0 ∉ s₁) (h₂ : 0 ∉ s₂) :
    strncmp s₁ s₂ len = 0 ↔ s₁.take len = s₂.take len := by
  induction len generalizing s₁ s₂ with
  | zero => simp [strncmp]
  | succ len ih =>
    rw [strncmp_succ_eq_zero_iff, ih (not_mem_tail h₁) (not_mem_tail h₂), deref_eq_zero_iff h₁,
      deref_eq_zero_iff h₂]
    cases s₁ with
    | nil =>
      cases s₂ with
      | nil => simp
      | cons b s₂ =>
        have hb : (0 : UInt8) ≠ b := (List.ne_and_not_mem_of_not_mem_cons h₂).1
        simp [deref, hb]
    | cons a s₁ =>
      have ha : (0 : UInt8) ≠ a := (List.ne_and_not_mem_of_not_mem_cons h₁).1
      cases s₂ with
      | nil => simp [deref, ha.symm]
      | cons b s₂ => simp

/-- In a string that is not empty, nothing is found. -/
theorem strchr_of_ne_nil (hs : 0 ∉ s) (hne : s ≠ []) : strchr s c = some none :=
  if_neg fun h => hne ((deref_eq_zero_iff hs).1 h)

theorem strrchrLoop_of_not_mem {pos : Option (List UInt8)} (h : c ∉ s) :
    strrchrLoop c s pos = pos := by
  induction s generalizing pos with
  | nil => rfl
  | cons a s ih =>
    obtain ⟨hne, hs⟩ := List.ne_and_not_mem_of_not_mem_cons h
    rw [strrchrLoop, if_neg hne.symm, ih hs]

/-- The last place is found. -/
theorem strrchrLoop_append {pos : Option (List UInt8)} (h : c ∉ s₂) :
    strrchrLoop c (s₁ ++ c :: s₂) pos = some (c :: s₂) := by
  induction s₁ generalizing pos with
  | nil => rw [List.nil_append, strrchrLoop, if_pos rfl, strrchrLoop_of_not_mem h]
  | cons a s₁ ih => rw [List.cons_append, strrchrLoop, ih]

theorem strrchr_of_not_mem (h : c ∉ s) : strrchr s c = none := strrchrLoop_of_not_mem h

theorem strrchr_append (h : c ∉ s₂) : strrchr (s₁ ++ c :: s₂) c = some (c :: s₂) :=
  strrchrLoop_append h

/-! ## Strings in memory -/

/-- The string, with the zero at its end, is in the memory from `a` on. -/
def StringAt (m : Bytes) (a : ℕ) (s : List UInt8) : Prop :=
  m.bytes a s.length = s ∧ m (a + s.length) = 0

instance (m : Bytes) (a : ℕ) (s : List UInt8) : Decidable (StringAt m a s) := instDecidableAnd

variable {m : Bytes} {a : ℕ} {t : List UInt8}

theorem StringAt.head (h : StringAt m a s) : m a = deref s := by
  cases s with
  | nil => exact h.2
  | cons c s => exact (List.cons.inj ((Bytes.bytes_succ ..).symm.trans h.1)).1

theorem StringAt.tail (h : StringAt m a (c :: s)) : StringAt m (a + 1) s := by
  refine ⟨(List.cons.inj ((Bytes.bytes_succ ..).symm.trans h.1)).2, ?_⟩
  rw [← h.2, List.length_cons, Nat.add_comm s.length, Nat.add_assoc]

theorem StringAt.congr {m' : Bytes} (h : StringAt m a s) (heq : ∀ x, a ≤ x → m' x = m x) :
    StringAt m' a s := by
  refine ⟨?_, (heq _ (Nat.le_add_right ..)).trans h.2⟩
  conv_rhs => rw [← h.1]
  exact Bytes.bytes_eq_iff.2 fun i _ => heq _ (Nat.le_add_right ..)

theorem StringAt.eq (hs : StringAt m a s) (ht : StringAt m a t) (hs0 : 0 ∉ s)
    (ht0 : 0 ∉ t) : s = t := by
  induction s generalizing a t with
  | nil => exact ((deref_eq_zero_iff ht0).1 (ht.head.symm.trans hs.2)).symm
  | cons b s ih =>
    cases t with
    | nil =>
      exact absurd ((deref_eq_zero_iff hs0).1 (hs.head.symm.trans ht.2)) (List.cons_ne_nil b s)
    | cons c t =>
      obtain rfl : b = c := hs.head.symm.trans ht.head
      rw [ih hs.tail ht.tail (not_mem_tail hs0) (not_mem_tail ht0)]

/-- A string fixes the memory where it is. -/
theorem StringAt.ext {m' : Bytes} (h : StringAt m a s) (h' : StringAt m' a s)
    (hkeep : ∀ x, x < a ∨ a + s.length < x → m' x = m x) : m' = m := by
  funext x
  by_cases hx : x < a ∨ a + s.length < x
  · exact hkeep x hx
  · obtain ⟨i, rfl⟩ := Nat.exists_eq_add_of_le (Nat.not_lt.1 fun hlt => hx (.inl hlt))
    rcases Nat.lt_or_ge i s.length with hi | hi
    · exact Bytes.bytes_eq_iff.1 (h'.1.trans h.1.symm) i hi
    · obtain rfl : i = s.length := by omega
      exact h'.2.trans h.2.symm

theorem StringAt.append (hs : m.bytes a s.length = s) (ht : StringAt m (a + s.length) t) :
    StringAt m a (s ++ t) := by
  refine ⟨?_, ?_⟩
  · rw [List.length_append, Bytes.bytes_add, hs, ht.1]
  · rw [List.length_append, ← Nat.add_assoc, ht.2]

theorem StringAt.store : StringAt (Function.update (m.store a s) (a + s.length) 0) a s := by
  refine ⟨?_, Function.update_self ..⟩
  conv_rhs => rw [← Bytes.bytes_store (m := m) (a := a) s]
  exact Bytes.bytes_eq_iff.2 fun i hi => Function.update_of_ne (by omega) ..

end CStr

end DemoOs
