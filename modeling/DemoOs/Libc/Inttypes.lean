import DemoOs.Types
import Mathlib.Data.List.TakeWhile
import Mathlib.Tactic.Linarith

/-!
# Integers from text

`strtoimax` and `strtoumax` (`strtoimax.c`, `strtoumax.c`). A pointer is what is left of the string
from there on, with the zero that ends it; of the character in `c` and the pointer `s` behind it, `c
:: s` is kept. Reading behind the zero gives nothing.

Both go through white space, a sign and the prefix of a hexadecimal number (`start`), and then add
up digits. Before a digit is added, the number so far is compared with the quotient of the largest
number and the base, and the digit with the remainder: the number that results is the one the digits
have, if that is not too large, and otherwise the largest (`digitLoop_spec`).
-/

namespace DemoOs.Inttypes

/-! ## Characters -/

def isdigit (c : UInt8) : Bool := 48 ≤ c && c ≤ 57

def isupper (c : UInt8) : Bool := 65 ≤ c && c ≤ 90

def isalpha (c : UInt8) : Bool := isupper c || 97 ≤ c && c ≤ 122

def isspace (c : UInt8) : Bool := c == 32 || 9 ≤ c && c ≤ 13

/-- What the loop makes of a character, if it is a digit or a letter. -/
def digit (c : UInt8) : Option ℕ :=
  if isdigit c then some (c.toNat - 48)
  else if isalpha c then some (c.toNat - if isupper c then 65 - 10 else 97 - 10)
  else none

/-- A digit in the base. -/
def valid (base : ℕ) (c : UInt8) : Bool := (digit c).any fun d => d < base

/-! ## Front -/

/-- `do c = *s++; while (isspace(c))`. -/
def skipSpace : List UInt8 → Option (List UInt8)
  | [] => none
  | c :: s => if isspace c then skipSpace s else some (c :: s)

/-- The sign, behind which another character is read. -/
def readSign : List UInt8 → Option (Bool × List UInt8)
  | [] => none
  | c :: s =>
    if c = 45 then if s = [] then none else some (true, s)
    else if c = 43 then if s = [] then none else some (false, s)
    else some (false, c :: s)

/-- `base = c == '0' ? 8 : 10`, if it is zero. -/
def resolveBase (base : ℕ) (c : UInt8) : ℕ := if base = 0 then if c = 48 then 8 else 10 else base

/-- The prefix of a hexadecimal number, which is skipped whatever comes behind it, and the base. -/
def readPrefix (base : ℕ) : List UInt8 → Option (ℕ × List UInt8)
  | [] => none
  | c :: s =>
    if (base = 0 ∨ base = 16) ∧ c = 48 then
      match s with
      | [] => none
      | x :: s' =>
        if x = 120 ∨ x = 88 then if s' = [] then none else some (16, s')
        else some (resolveBase base c, c :: s)
    else some (resolveBase base c, c :: s)

/-- What comes before the digits. -/
def start (nptr : List UInt8) (base : ℕ) : Option (Bool × ℕ × List UInt8) := do
  let s ← skipSpace nptr
  let (neg, s) ← readSign s
  let (base, s) ← readPrefix base s
  some (neg, base, s)

/-! ## Digits -/

/-- `acc` and `any`, and whether `errno` has been set. -/
structure Digits where
  acc : ℤ
  any : ℤ
  erange : Bool

/-- The loop. When a digit does not fit, the number is the limit, and further digits are only
    skipped. -/
def digitLoop (base : ℕ) (exceeds : ℤ → ℕ → Bool) (push : ℤ → ℕ → ℤ) (limit : ℤ) :
    List UInt8 → Digits → Option (Digits × List UInt8)
  | [], _ => none
  | c :: s, t =>
    match digit c with
    | none => some (t, c :: s)
    | some d =>
      if d ≥ base then some (t, c :: s)
      else if t.any < 0 then digitLoop base exceeds push limit s t
      else if exceeds t.acc d then digitLoop base exceeds push limit s ⟨limit, -1, true⟩
      else digitLoop base exceeds push limit s ⟨push t.acc d, 1, t.erange⟩

/-- `intmax_t`. -/
def s64 (n : ℤ) : ℤ := (n + 2 ^ 63) % 2 ^ 64 - 2 ^ 63

/-- `uintmax_t`. -/
def u64 (n : ℤ) : ℤ := n % 2 ^ 64

def INTMAX_MAX : ℤ := 2 ^ 63 - 1
def INTMAX_MIN : ℤ := -2 ^ 63
def UINTMAX_MAX : ℤ := 2 ^ 64 - 1

/-- What is returned, whether `errno` is set to `ERANGE`, and what is stored at `endptr`. -/
structure Result where
  value : ℤ
  erange : Bool
  endptr : Option (List UInt8)

/-- `if (endptr != 0) *endptr = (char *) (any ? s - 1 : nptr)`. -/
def storeEnd (endptr : Bool) (any : ℤ) (s nptr : List UInt8) : Option (List UInt8) :=
  if endptr then some (if any ≠ 0 then s else nptr) else none

/-- The quotient and the remainder for the comparison; all cases of the base have the same. -/
def cutoffs (neg : Bool) (base : ℕ) : ℤ × ℤ :=
  let cutoff := if neg then INTMAX_MIN else INTMAX_MAX
  let cutlim := cutoff.tmod base
  let cutoff := cutoff.tdiv base
  if neg then
    let (cutoff, cutlim) := if cutlim > 0 then (cutoff + 1, cutlim - base) else (cutoff, cutlim)
    (cutoff, -cutlim)
  else (cutoff, cutlim)

def strtoimax (nptr : List UInt8) (endptr : Bool) (base : ℕ) : Option Result := do
  let (neg, base, s) ← start nptr base
  let (cutoff, cutlim) := cutoffs neg base
  let (t, s) ←
    if neg then
      digitLoop base (fun acc c => acc < cutoff ∨
        (acc = cutoff ∧ c > cutlim)) (fun acc c => s64 (s64 (acc * base) - c))
        INTMAX_MIN s ⟨0, 0, false⟩
    else
      digitLoop base (fun acc c => acc > cutoff ∨
        (acc = cutoff ∧ c > cutlim)) (fun acc c => s64 (s64 (acc * base) + c))
        INTMAX_MAX s ⟨0, 0, false⟩
  some ⟨t.acc, t.erange, storeEnd endptr t.any s nptr⟩

def strtoumax (nptr : List UInt8) (endptr : Bool) (base : ℕ) : Option Result := do
  let (neg, base, s) ← start nptr base
  let cutoff := UINTMAX_MAX / base
  let cutlim := UINTMAX_MAX % base
  let (t, s) ← digitLoop base (fun acc c => acc > cutoff ∨ (acc = cutoff ∧ c > cutlim))
    (fun acc c => u64 (u64 (acc * base) + c)) UINTMAX_MAX s ⟨0, 0, false⟩
  let acc := if neg ∧ t.any > 0 then u64 (-t.acc) else t.acc
  some ⟨acc, t.erange, storeEnd endptr t.any s nptr⟩

/-! ## The number -/

/-- The number the digits have. -/
def value (base : ℕ) (ds : List UInt8) : ℕ := ds.foldl (fun n c => n * base + (digit c).getD 0) 0

/-- What the loop has got from digits, when numbers up to `M` fit. -/
def saturated (base M : ℕ) (emb : ℕ → ℤ) (limit : ℤ) (ds : List UInt8) : Digits :=
  if ds = [] then ⟨0, 0, false⟩ else if value base ds ≤ M then ⟨emb (value base ds), 1, false⟩
    else ⟨limit, -1, true⟩

/-- The comparison and the arithmetic are those of the numbers up to `M`, which have the
    representation `emb`. -/
structure Accumulates (base M : ℕ) (emb : ℕ → ℤ) (exceeds : ℤ → ℕ → Bool)
    (push : ℤ → ℕ → ℤ) : Prop where
  zero : emb 0 = 0
  over_iff : ∀ {n d}, n ≤ M → d < base → (exceeds (emb n) d = true ↔ M < n * base + d)
  push : ∀ {n d}, n * base + d ≤ M → push (emb n) d = emb (n * base + d)

variable {base M n d : ℕ} {emb : ℕ → ℤ} {exceeds : ℤ → ℕ → Bool} {push : ℤ → ℕ → ℤ} {limit : ℤ}
    {ds v : List UInt8} {c : UInt8}

/-- A digit more. -/
theorem value_append (h : digit c = some d) :
    value base (ds ++ [c]) = value base ds * base + d := by
  rw [value, List.foldl_append, List.foldl_cons, List.foldl_nil, h, Option.getD_some, value]

/-- A character is a digit of the base if its value is below the base. -/
theorem valid_eq (h : digit c = some d) : valid base c = decide (d < base) := by
  rw [valid, h, Option.any_some]

/-- A character that is no digit at all is none of any base. -/
theorem valid_of_none (h : digit c = none) : valid base c = false := by
  rw [valid, h, Option.any_none]

/-- As long as the number fits, it is that of the digits. -/
theorem saturated_of_le (limit : ℤ) (hzero : emb 0 = 0) (h : value base ds ≤ M) :
    ∃ any, saturated base M emb limit ds = ⟨emb (value base ds), any, false⟩ ∧ ¬any < 0 := by
  rw [saturated]
  split_ifs with hds
  · subst hds
    exact ⟨0, by rw [value, List.foldl_nil, hzero], by decide⟩
  · exact ⟨1, rfl, by decide⟩

/-- A number that is too large becomes the limit. -/
theorem saturated_of_lt (h : M < value base ds) :
    saturated base M emb limit ds = ⟨limit, -1, true⟩ := by
  have hds : ds ≠ [] := by
    rintro rfl
    exact Nat.not_lt_zero _ h
  rw [saturated, if_neg hds, if_neg (Nat.not_le.2 h)]

/-- One more digit. -/
theorem digitLoop_push (h : Accumulates base M emb exceeds push) (hdigit : digit c = some d)
    (hd : d < base) (s : List UInt8) :
    digitLoop base exceeds push limit (c :: s) (saturated base M emb limit ds) =
      digitLoop base exceeds push limit s (saturated base M emb limit (ds ++ [c])) := by
  rw [digitLoop, hdigit]
  dsimp only
  rw [if_neg (Nat.not_le.2 hd)]
  have hnext : value base (ds ++ [c]) = value base ds * base + d := value_append hdigit
  rcases Nat.lt_or_ge M (value base ds) with hlt | hle
  · -- Once it does not fit, it does not fit with more digits.
    have hgrow : value base ds ≤ value base (ds ++ [c]) := by
      rw [hnext]
      exact Nat.le_add_right_of_le (Nat.le_mul_of_pos_right _ (Nat.zero_lt_of_lt hd))
    rw [saturated_of_lt hlt, saturated_of_lt (hlt.trans_le hgrow)]
    rfl
  · obtain ⟨any, heq, hany⟩ := saturated_of_le limit h.zero hle
    rw [heq]
    dsimp only
    rw [if_neg hany]
    by_cases hover : exceeds (emb (value base ds)) d = true
    · rw [if_pos hover, saturated_of_lt]
      rwa [hnext, ← h.over_iff hle hd]
    · have hfit : value base ds * base + d ≤ M := Nat.not_lt.1 (mt (h.over_iff hle hd).2 hover)
      rw [if_neg hover, h.push hfit, saturated, if_neg (by simp), if_pos (by rwa [hnext]), hnext]

/-- The loop goes through all digits of the base, and keeps the number as far as it fits. -/
theorem digitLoop_spec (h : Accumulates base M emb exceeds push) (v : List UInt8) :
    digitLoop base exceeds push limit (v ++ [0]) (saturated base M emb limit ds) =
      some (saturated base M emb limit (ds ++ v.takeWhile (valid base)),
        v.dropWhile (valid base) ++ [0]) := by
  induction v generalizing ds with
  | nil => rw [List.takeWhile_nil, List.append_nil]; rfl
  | cons c v ih =>
    rw [List.cons_append]
    cases hdigit : digit c with
    | none =>
      have hvalid : valid base c = false := valid_of_none hdigit
      rw [digitLoop, hdigit, List.takeWhile_cons, List.dropWhile_cons, hvalid]
      simp
    | some d =>
      by_cases hd : d < base
      · have hvalid : valid base c = true := (valid_eq hdigit).trans (decide_eq_true hd)
        rw [digitLoop_push h hdigit hd, ih, List.takeWhile_cons_of_pos hvalid,
          List.dropWhile_cons_of_pos hvalid, List.append_assoc, List.singleton_append]
      · have hvalid : valid base c = false := (valid_eq hdigit).trans (decide_eq_false hd)
        rw [digitLoop, hdigit, List.takeWhile_cons, List.dropWhile_cons, hvalid]
        simp [Nat.not_lt.1 hd]

/-- The loop takes the digits there are, and stops at the first character that is none. -/
theorem digitLoop_start (h : Accumulates base M emb exceeds push) (v : List UInt8) :
    digitLoop base exceeds push limit (v ++ [0]) ⟨0, 0, false⟩ =
      some (saturated base M emb limit (v.takeWhile (valid base)),
        v.dropWhile (valid base) ++ [0]) := by
  have hloop := @digitLoop_spec base M emb exceeds push limit [] h v
  rwa [saturated, if_pos rfl, List.nil_append] at hloop

/-! ## The types -/

/-- The comparison with the quotient and the remainder. -/
theorem over_iff (hd : d < base) : M / base < n ∨ n = M / base ∧ M % base < d ↔
    M < n * base + d := by
  have hM : M / base * base + M % base = M := by
    rw [Nat.mul_comm]
    exact Nat.div_add_mod M base
  have hmod : M % base < base := Nat.mod_lt M (Nat.zero_lt_of_lt hd)
  rcases Nat.lt_trichotomy n (M / base) with hlt | rfl | hgt
  · have hle : (n + 1) * base ≤ M / base * base := Nat.mul_le_mul_right base hlt
    rw [Nat.succ_mul] at hle
    omega
  · omega
  · have hle : (M / base + 1) * base ≤ n * base := Nat.mul_le_mul_right base hgt
    rw [Nat.succ_mul] at hle
    omega

/-- What fits into a signed word stays what it is. -/
theorem s64_eq {n : ℤ} (hlo : -2 ^ 63 ≤ n) (hhi : n < 2 ^ 63) : s64 n = n := by
  rw [s64]
  omega

/-- What fits into an unsigned word stays what it is. -/
theorem u64_eq {n : ℤ} (hlo : 0 ≤ n) (hhi : n < 2 ^ 64) : u64 n = n := Int.emod_eq_of_lt hlo hhi

/-- The largest number, divided by the base. -/
theorem cutoffs_pos (base : ℕ) :
    cutoffs false base = ((((2 ^ 63 - 1) / base : ℕ) : ℤ), (((2 ^ 63 - 1) % base : ℕ) : ℤ)) := by
  have hmax : INTMAX_MAX = ((2 ^ 63 - 1 : ℕ) : ℤ) := by decide
  simp only [cutoffs, Bool.false_eq_true, if_false, hmax, Int.ofNat_tdiv, Int.ofNat_tmod]

/-- The least number, divided by the base. -/
theorem cutoffs_neg (base : ℕ) :
    cutoffs true base = (-((2 ^ 63 / base : ℕ) : ℤ), ((2 ^ 63 % base : ℕ) : ℤ)) := by
  have hmin : INTMAX_MIN = -((2 ^ 63 : ℕ) : ℤ) := by decide
  have hlim : ¬-((2 ^ 63 % base : ℕ) : ℤ) > 0 := by omega
  simp only [cutoffs, if_true, hmin, Int.neg_tdiv, Int.neg_tmod, ← Int.ofNat_tdiv, ← Int.ofNat_tmod,
    if_neg hlim, neg_neg]

/-- The loop of `strtoimax`, of a number without a minus. -/
theorem accumulates_pos (base : ℕ) : Accumulates base (2 ^ 63 - 1) (fun n => n)
    (fun acc c => acc > (cutoffs false base).1 ∨
      (acc = (cutoffs false base).1 ∧ c > (cutoffs false base).2))
    (fun acc c => s64 (s64 (acc * base) + c)) where
  zero := rfl
  over_iff {n d} _ hd := by
    rw [decide_eq_true_iff, ← over_iff hd, cutoffs_pos]
    omega
  push {n d} hfit := by
    rw [Nat.cast_add, ← Nat.cast_mul]
    generalize n * base = k at *
    have hk : s64 k = k := s64_eq (by omega) (by omega)
    rw [hk, s64_eq (by omega) (by omega)]

/-- The loop of `strtoimax`, of a number with a minus. -/
theorem accumulates_neg (base : ℕ) : Accumulates base (2 ^ 63) (fun n => -n)
    (fun acc c => acc < (cutoffs true base).1 ∨
      (acc = (cutoffs true base).1 ∧ c > (cutoffs true base).2))
    (fun acc c => s64 (s64 (acc * base) - c)) where
  zero := rfl
  over_iff {n d} _ hd := by
    rw [decide_eq_true_iff, ← over_iff hd, cutoffs_neg]
    omega
  push {n d} hfit := by
    rw [Nat.cast_add, neg_mul, ← Nat.cast_mul]
    generalize n * base = k at *
    have hk : s64 (-k) = -k := s64_eq (by omega) (by omega)
    rw [hk, s64_eq (by omega) (by omega)]
    omega

/-- The loop of `strtoumax`. -/
theorem accumulates_unsigned (base : ℕ) : Accumulates base (2 ^ 64 - 1) (fun n => n)
    (fun acc c => acc > UINTMAX_MAX / base ∨ (acc = UINTMAX_MAX / base ∧ c > UINTMAX_MAX % base))
    (fun acc c => u64 (u64 (acc * base) + c)) where
  zero := rfl
  over_iff {n d} _ hd := by
    have hmax : UINTMAX_MAX = ((2 ^ 64 - 1 : ℕ) : ℤ) := by decide
    rw [decide_eq_true_iff, ← over_iff hd, hmax, ← Int.natCast_ediv, ← Int.natCast_emod]
    omega
  push {n d} hfit := by
    rw [Nat.cast_add, ← Nat.cast_mul]
    generalize n * base = k at *
    have hk : u64 k = k := u64_eq (by omega) (by omega)
    rw [hk, u64_eq (by omega) (by omega)]

end DemoOs.Inttypes
