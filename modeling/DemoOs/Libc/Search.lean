import DemoOs.Libc.Memset
import DemoOs.Vfs.Strings

/-!
# Searching a character

`memchr` (`memchr.cpp`), and what `strchr` (`CStr.strchr`) and it find. `memchr` goes from the end
of the buffer to its start: what it finds is the last place. It goes on as long as the pointer is
not before the buffer, which at the address zero no pointer is: there it goes on, if there is no
place to be found, beyond the start from the other end of the address space. `strchr` runs as long
as the byte it reads is zero.

Either function finds the first place exactly if that makes no difference (`searches_iff`).
-/

namespace DemoOs

open CStr

/-! ## The buffer -/

/-- `while (bufPtr >= (char*) buf)`, which may go on for ever. -/
def memchrLoop (m : Bytes) (buf : ℕ) (ch : UInt8) : ℕ → ℕ → Option (Option ℕ)
  | 0, _ => none
  | fuel + 1, bufPtr =>
    if bufPtr ≥ buf then
      if m bufPtr = ch then some (some bufPtr) else memchrLoop m buf ch fuel (wordSub bufPtr 1)
    else some none

/-- `memchr`: a null pointer, or where the character is. -/
def memchr (fuel : ℕ) (m : Bytes) (buf : ℕ) (ch : BitVec 32) (count : ℕ) : Option (Option ℕ) :=
  memchrLoop m buf (lowByte ch) fuel (word (buf + wordSub count 1))

/-- The first place of the character among `count` bytes, if there is one. -/
def FirstIn (m : Bytes) (buf : ℕ) (ch : UInt8) (count : ℕ) : Option ℕ → Prop
  | some a => buf ≤ a ∧ a < buf + count ∧ m a = ch ∧ ∀ a', buf ≤ a' → a' < a → m a' ≠ ch
  | none => ∀ a, buf ≤ a → a < buf + count → m a ≠ ch

/-- `memchr` returns the first place. -/
def MemchrCorrect (m : Bytes) (buf : ℕ) (ch : BitVec 32) (count : ℕ) : Prop :=
  ∃ fuel r, memchr fuel m buf ch count = some r ∧ FirstIn m buf (lowByte ch) count r

/-- There is one place at most. -/
def AtMostOne (m : Bytes) (buf : ℕ) (ch : UInt8) (count : ℕ) : Prop :=
  ∀ a a', buf ≤ a → a < a' → a' < buf + count → m a = ch → m a' ≠ ch

variable {m : Bytes} {buf count fuel fuel' p n : ℕ} {ch : UInt8} {r r' : Option ℕ}

theorem memchrLoop_unique (h : memchrLoop m buf ch fuel p = some r)
    (h' : memchrLoop m buf ch fuel' p = some r') :
    r = r' := by
  induction fuel generalizing p fuel' with
  | zero => simp [memchrLoop] at h
  | succ fuel ih =>
    cases fuel' with
    | zero => simp [memchrLoop] at h'
    | succ fuel' =>
      rw [memchrLoop] at h h'
      split_ifs at h h'
      · exact Option.some_inj.1 (h.symm.trans h')
      · exact ih h h'
      · exact Option.some_inj.1 (h.symm.trans h')

/-- One turn, with `n + 1` bytes to be searched. -/
theorem memchrLoop_succ (hrange : buf + (n + 1) ≤ 2 ^ 32) :
    memchrLoop m buf ch (fuel + 1) (word (buf + wordSub (n + 1) 1)) =
      if m (buf + n) = ch then some (some (buf + n))
        else memchrLoop m buf ch fuel (word (buf + wordSub n 1)) := by
  have hptr : word (buf + wordSub (n + 1) 1) = buf + n := by
    simp only [wordSub, word]
    omega
  have hnext : wordSub (buf + n) 1 = word (buf + wordSub n 1) := by
    simp only [wordSub, word]
    omega
  rw [memchrLoop, hptr, if_pos (Nat.le_add_right buf n), hnext]

/-- With the character among the bytes, the last place is found. -/
theorem memchrLoop_last {a : ℕ} (hrange : buf + n ≤ 2 ^ 32) (hle : buf ≤ a) (hlt : a < buf + n)
    (ha : m a = ch)
    (hlast : ∀ a', a < a' → a' < buf + n → m a' ≠ ch) (hfuel : n < fuel) :
    memchrLoop m buf ch fuel (word (buf + wordSub n 1)) = some (some a) := by
  induction n generalizing fuel with
  | zero => omega
  | succ n ih =>
    obtain ⟨fuel, rfl⟩ := Nat.exists_eq_succ_of_ne_zero (Nat.ne_zero_of_lt hfuel)
    rw [memchrLoop_succ hrange]
    rcases Nat.lt_or_ge a (buf + n) with hbefore | hge
    · rw [if_neg (hlast (buf + n) hbefore (by omega))]
      exact ih (by omega) hbefore (fun a' hlt hlt' => hlast a' hlt (by omega)) (by omega)
    · obtain rfl : a = buf + n := by omega
      rw [if_pos ha]

/-- Without, a null pointer is returned, if the buffer is not at the address zero. -/
theorem memchrLoop_none (hrange : buf + n ≤ 2 ^ 32) (hbuf : buf ≠ 0)
    (hno : ∀ a, buf ≤ a → a < buf + n → m a ≠ ch)
    (hfuel : n < fuel) : memchrLoop m buf ch fuel (word (buf + wordSub n 1)) = some none := by
  induction n generalizing fuel with
  | zero =>
    obtain ⟨fuel, rfl⟩ := Nat.exists_eq_succ_of_ne_zero (Nat.ne_of_gt hfuel)
    have hptr : word (buf + wordSub 0 1) < buf := by
      simp only [wordSub, word]
      omega
    rw [memchrLoop, if_neg (Nat.not_le.2 hptr)]
  | succ n ih =>
    obtain ⟨fuel, rfl⟩ := Nat.exists_eq_succ_of_ne_zero (Nat.ne_zero_of_lt hfuel)
    rw [memchrLoop_succ hrange, if_neg (hno (buf + n) (by omega) (by omega))]
    exact ih (by omega) (fun a hle hlt => hno a hle (by omega)) (by omega)

/-- At the address zero, the null pointer is never returned. -/
theorem memchrLoop_zero : memchrLoop m 0 ch fuel p ≠ some none := by
  induction fuel generalizing p with
  | zero => simp [memchrLoop]
  | succ fuel ih =>
    rw [memchrLoop, if_pos (Nat.zero_le p)]
    split_ifs
    · simp
    · exact ih

/-- Where the character is among the bytes, there is a last place. -/
theorem exists_lastPlace (h : ∃ a, buf ≤ a ∧ a < buf + n ∧ m a = ch) :
    ∃ a, buf ≤ a ∧ a < buf + n ∧ m a = ch ∧ ∀ a', a < a' → a' < buf + n → m a' ≠ ch := by
  induction n with
  | zero =>
    obtain ⟨a, hle, hlt, -⟩ := h
    omega
  | succ n ih =>
    by_cases hn : m (buf + n) = ch
    · exact ⟨buf + n, by omega, by omega, hn, fun a' hlt hlt' => by omega⟩
    · obtain ⟨a, hle, hlt, ha⟩ := h
      have hne : a ≠ buf + n := fun heq => hn (heq ▸ ha)
      obtain ⟨a, hle, hlt, ha, hlast⟩ := ih ⟨a, hle, by omega, ha⟩
      refine ⟨a, hle, by omega, ha, fun a' hlt hlt' => ?_⟩
      rcases Nat.lt_or_ge a' (buf + n) with h | h
      · exact hlast a' hlt h
      · exact (show a' = buf + n by omega) ▸ hn

/-- What `memchr` returns if the character is among the bytes is the first place if it is the only
    one. -/
theorem memchrCorrect_iff (m : Bytes) (c : BitVec 32) (hrange : buf + count ≤ 2 ^ 32) :
    MemchrCorrect m buf c count ↔ AtMostOne m buf (lowByte c) count ∧
      (buf ≠ 0 ∨ ∃ a, buf ≤ a ∧ a < buf + count ∧ m a = lowByte c) := by
  by_cases h : ∃ a, buf ≤ a ∧ a < buf + count ∧ m a = lowByte c
  · obtain ⟨b, hle, hlt, hb, hlast⟩ := exists_lastPlace h
    have hrun : memchr (count + 1) m buf c count = some (some b) :=
      memchrLoop_last hrange hle hlt hb hlast (Nat.lt_succ_self count)
    refine ⟨fun ⟨fuel, r, hr, hfirst⟩ => ⟨fun a a' hle hlt hlt' ha ha' => ?_, .inr h⟩,
      fun ⟨hone, _⟩ =>
      ⟨count + 1, some b, hrun, hle, hlt, hb,
        fun a' hle' hlt' ha' => hone a' b hle' hlt' hlt ha' hb⟩⟩
    obtain rfl := memchrLoop_unique hr hrun
    -- Of two places, the second would not be behind the last one, and the first not before it.
    have hge : a' ≤ b := Nat.not_lt.1 fun h => hlast a' h hlt' ha'
    exact hfirst.2.2.2 a hle (by omega) ha
  · have hno : ∀ a, buf ≤ a → a < buf + count → m a ≠ lowByte c :=
      fun a hle hlt ha => h ⟨a, hle, hlt, ha⟩
    have hone : AtMostOne m buf (lowByte c) count :=
      fun a a' hle hlt hlt' ha => absurd ha (hno a hle (by omega))
    refine ⟨fun ⟨fuel, r, hr, hfirst⟩ => ⟨hone, .inl ?_⟩,
      fun ⟨_, hbuf⟩ => ⟨count + 1, none, ?_, hno⟩⟩
    · rintro rfl
      cases r with
      | none => exact memchrLoop_zero hr
      | some a => exact hno a hfirst.1 hfirst.2.1 hfirst.2.2.1
    · exact memchrLoop_none hrange (hbuf.resolve_right h) hno (Nat.lt_succ_self count)

/-! ## The string -/

/-- What is left of a string from the first place of a character on, if there is one; the zero is at
    the end. -/
def FirstOf (s : List UInt8) (c : UInt8) : Option (List UInt8) → Prop
  | some t => ∃ pre, s = pre ++ t ∧ c ∉ pre ∧ deref t = c
  | none => c ≠ 0 ∧ c ∉ s

/-- `strchr` returns the first place, without reading behind the end. -/
def StrchrCorrect (s : CStr) (c : UInt8) : Prop :=
  ∃ r, strchr s.1 c = some r ∧ FirstOf s.1 c r

theorem strchrCorrect_iff (s : CStr) (c : UInt8) :
    StrchrCorrect s c ↔ (s.1 = [] ∧ c = 0) ∨ (s.1 ≠ [] ∧ c ≠ 0 ∧ c ∉ s.1) := by
  by_cases hs : s.1 = []
  · have hrun : strchr s.1 c = if 0 = c then some (some []) else none := by
      rw [hs]
      rfl
    rw [StrchrCorrect, hrun]
    split_ifs with hc
    · subst hc
      exact iff_of_true ⟨some [], rfl, [], by simpa using hs, by simp, rfl⟩ (.inl ⟨hs, rfl⟩)
    · refine iff_of_false (fun ⟨r, hr, _⟩ => by simp at hr) ?_
      rintro (⟨-, rfl⟩ | ⟨hne, -⟩)
      · exact hc rfl
      · exact hne hs
  · rw [StrchrCorrect, strchr_of_ne_nil s.2 hs]
    constructor
    · rintro ⟨r, hr, hfirst⟩
      obtain rfl : none = r := Option.some_inj.1 hr
      exact .inr ⟨hs, hfirst⟩
    · rintro (⟨hnil, -⟩ | ⟨-, hfirst⟩)
      · exact absurd hnil hs
      · exact ⟨none, rfl, hfirst⟩

/-! ## Both searches -/

/-- When the first place is found. -/
theorem searches_iff (s : CStr) (c : UInt8) (m : Bytes) (ch : BitVec 32)
    (hrange : buf + count ≤ 2 ^ 32) :
    (StrchrCorrect s c ↔ (s.1 = [] ∧ c = 0) ∨ (s.1 ≠ [] ∧ c ≠ 0 ∧ c ∉ s.1)) ∧
      (MemchrCorrect m buf ch count ↔ AtMostOne m buf (lowByte ch) count ∧
        (buf ≠ 0 ∨ ∃ a, buf ≤ a ∧ a < buf + count ∧ m a = lowByte ch)) :=
  ⟨strchrCorrect_iff s c, memchrCorrect_iff m ch hrange⟩

/-- A byte that is found in two. -/
theorem searches_unique :
    StrchrCorrect (ofChars ['a'] (by decide)) 98 ∧
      MemchrCorrect (fun a => if a = 17 then 98 else 97) 16 98 2 := by
  obtain ⟨hstr, hmem⟩ :=
    searches_iff (ofChars ['a'] (by decide)) 98 (fun a => if a = 17 then 98 else 97) 98
    (show 16 + 2 ≤ 2 ^ 32 by decide)
  refine ⟨hstr.2 (by decide), hmem.2 ⟨fun a a' _ hlt hlt' ha => ?_, .inl (by decide)⟩⟩
  have hne : a ≠ 17 := by omega
  exact absurd ((if_neg hne).symm.trans ha) (by decide)

/-- A string that begins with the character, and two bytes that are both the character. -/
theorem not_searches :
    ¬StrchrCorrect (ofChars ['a'] (by decide)) 97 ∧ ¬MemchrCorrect (fun _ => 97) 16 97 2 := by
  constructor
  · rw [strchrCorrect_iff]
    decide
  · rw [memchrCorrect_iff (fun _ => 97) 97 (by decide)]
    exact fun h => h.1 16 17 (by decide) (by decide) (by decide) (by decide) (by decide)

end DemoOs
