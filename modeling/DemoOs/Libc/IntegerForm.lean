import DemoOs.Libc.Inttypes
import DemoOs.Vfs.Strings

/-!
# The form of an integer

White space, a sign, the prefix `0x` of a hexadecimal number, and digits (`Form`): what `strtoimax`
and `strtoumax` are to parse is the longest part of the string, from its start, that has this form
(`Longest`). They do, but for one point: they skip the prefix without looking whether there is a
digit behind it. Where there is none, the `0` on its own has the form, and they find nothing
(`strto_iff`).
-/

namespace DemoOs.Inttypes

/-! ## Forms -/

def IsSign (neg : Bool) (sign : List UInt8) : Prop :=
  sign = [] ∧ neg = false ∨ sign = [43] ∧ neg = false ∨ sign = [45] ∧ neg = true

/-- White space and a sign, and what comes behind. -/
structure Front (s spaces sign : List UInt8) (neg : Bool) (u : List UInt8) : Prop where
  eq : s = spaces ++ (sign ++ u)
  spaces : ∀ c ∈ spaces, isspace c = true
  sign : IsSign neg sign

/-- The base of digits that come behind `pre`. -/
def IsPrefix (base b : ℕ) (ds pre : List UInt8) : Prop :=
  pre = [] ∧ b = resolveBase base (ds.headD 0) ∨ (base = 0 ∨ base = 16) ∧ b = 16 ∧
    (pre = [48, 120] ∨ pre = [48, 88])

/-- The text `p` is an integer, with the digits `ds` in the base `b`. -/
structure Form (base : ℕ) (neg : Bool) (b : ℕ) (ds p : List UInt8) : Prop where
  front : ∃ spaces sign pre, Front p spaces sign neg (pre ++ ds) ∧ IsPrefix base b ds pre
  ne_nil : ds ≠ []
  valid : ∀ c ∈ ds, valid b c = true

/-- The longest part of `s` from its start that is an integer. -/
structure Longest (base : ℕ) (s : List UInt8) (neg : Bool) (b : ℕ) (ds p : List UInt8) : Prop where
  form : Form base neg b ds p
  isPrefix : p <+: s
  longest : ∀ neg' b' ds' p', p' <+: s → Form base neg' b' ds' p' → p'.length ≤ p.length

/-- A type of integers: the largest number with a sign, its value, and what there is instead of
    larger ones. -/
structure Kind where
  largest : Bool → ℕ
  val : Bool → ℕ → ℤ
  limit : Bool → ℤ

def intmax : Kind where
  largest neg := if neg then 2 ^ 63 else 2 ^ 63 - 1
  val neg n := if neg then -n else n
  limit neg := if neg then -2 ^ 63 else 2 ^ 63 - 1

def uintmax : Kind where
  largest _ := 2 ^ 64 - 1
  val neg n := if neg then -n % 2 ^ 64 else n
  limit _ := 2 ^ 64 - 1

/-- What comes of digits. -/
def Kind.read (k : Kind) (neg : Bool) (n : ℕ) : ℤ × Bool :=
  if n ≤ k.largest neg then (k.val neg n, false) else (k.limit neg, true)

/-- The longest integer has been parsed, or there is none, and the string is left as it is. -/
def Parsed (k : Kind) (base : ℕ) (s : List UInt8) (r : Result) : Prop :=
  (∃ p rest neg b ds, s = p ++ rest ∧ Longest base s neg b ds p ∧
    (r.value, r.erange) = k.read neg (value b ds) ∧
    ∀ e, r.endptr = some e → e = rest ++ [0]) ∨
  (∀ neg b ds p, p <+: s → ¬Form base neg b ds p) ∧ (r.value, r.erange) = (0, false) ∧
    ∀ e, r.endptr = some e → e = s ++ [0]

/-- Behind the prefix of a hexadecimal number, there is no digit. -/
def Bare (base : ℕ) (s : List UInt8) : Prop :=
  (base = 0 ∨ base = 16) ∧ ∃ spaces sign neg x t, Front s spaces sign neg (48 :: x :: t) ∧
    (x = 120 ∨ x = 88) ∧
    ∀ c, t.head? = some c → valid 16 c = false

variable {base b : ℕ} {neg endptr : Bool} {s u t ds spaces sign p : List UInt8}
    {a c x : UInt8} {k : Kind}

/-! ## Front -/

/-- A digit is neither white space nor a sign. -/
theorem digit_front (h : (digit a).isSome = true) : isspace a = false ∧ a ≠ 43 ∧ a ≠ 45 := by
  have hall : ∀ b : BitVec 8, (digit ⟨b⟩).isSome = true → isspace ⟨b⟩ = false ∧ (⟨b⟩ : UInt8) ≠ 43 ∧
      (⟨b⟩ : UInt8) ≠ 45 := by
    decide +kernel
  exact hall a.toBitVec h

theorem isSome_of_valid (h : valid b a = true) : (digit a).isSome = true := by
  cases hd : digit a with
  | none =>
    rw [valid_of_none hd] at h
    cases h
  | some d => rfl

theorem skipSpace_append (s : List UInt8) :
    skipSpace (s ++ [0]) = some (s.dropWhile isspace ++ [0]) := by
  induction s with
  | nil => rfl
  | cons c s ih =>
    rw [List.cons_append, skipSpace, List.dropWhile_cons]
    split_ifs
    · exact ih
    · rfl

/-- The sign that is read. -/
theorem exists_sign (t : List UInt8) :
    ∃ sign neg u, t = sign ++ u ∧ IsSign neg sign ∧ readSign (t ++ [0]) = some (neg, u ++ [0]) ∧
      ∀ sign' neg' a q, sign' ++ a :: q <+: t → IsSign neg' sign' → a ≠ 43 → a ≠ 45 →
        sign' = sign ∧ neg' = neg ∧ a :: q <+: u := by
  -- What begins with the character that is read has that as its sign.
  cases t with
  | nil =>
    refine ⟨[], false, [], rfl, .inl ⟨rfl, rfl⟩, rfl, fun sign' neg' a q h _ _ _ => ?_⟩
    simp at h
  | cons c t =>
    by_cases hminus : c = 45
    · subst hminus
      refine ⟨[45], true, t, rfl,
        .inr (.inr ⟨rfl, rfl⟩), by simp [readSign], fun sign' neg' a q h hsign h₁ h₂ => ?_⟩
      rcases hsign with ⟨rfl, rfl⟩ | ⟨rfl, rfl⟩ | ⟨rfl, rfl⟩
      · exact absurd (List.cons_prefix_cons.1 h).1 h₂
      · exact absurd (List.cons_prefix_cons.1 h).1 (by decide)
      · exact ⟨rfl, rfl, (List.cons_prefix_cons.1 h).2⟩
    by_cases hplus : c = 43
    · subst hplus
      refine ⟨[43], false, t, rfl,
        .inr (.inl ⟨rfl, rfl⟩), by simp [readSign], fun sign' neg' a q h hsign h₁ h₂ => ?_⟩
      rcases hsign with ⟨rfl, rfl⟩ | ⟨rfl, rfl⟩ | ⟨rfl, rfl⟩
      · exact absurd (List.cons_prefix_cons.1 h).1 h₁
      · exact ⟨rfl, rfl, (List.cons_prefix_cons.1 h).2⟩
      · exact absurd (List.cons_prefix_cons.1 h).1 (by decide)
    · refine ⟨[], false, c :: t, rfl,
        .inl ⟨rfl, rfl⟩, by simp [readSign, hminus, hplus], fun sign' neg' a q h hsign _ _ => ?_⟩
      rcases hsign with ⟨rfl, rfl⟩ | ⟨rfl, rfl⟩ | ⟨rfl, rfl⟩
      · exact ⟨rfl, rfl, h⟩
      · exact absurd (List.cons_prefix_cons.1 h).1.symm hplus
      · exact absurd (List.cons_prefix_cons.1 h).1.symm hminus

/-- White space and the sign are gone through, and no integer has other ones. -/
theorem exists_front (s : List UInt8) :
    ∃ spaces sign neg u, Front s spaces sign neg u ∧
      (∀ base, start (s ++ [0]) base = (readPrefix base (u ++ [0])).map fun p => (neg, p)) ∧
      ∀ p spaces' sign' neg' a q, p <+: s → Front p spaces' sign' neg' (a :: q) →
        (digit a).isSome = true →
        spaces' = spaces ∧ sign' = sign ∧ neg' = neg ∧ a :: q <+: u := by
  obtain ⟨sign, neg, u, heq, hsign, hread, hunique⟩ := exists_sign (s.dropWhile isspace)
  refine ⟨s.takeWhile isspace, sign, neg, u, ⟨?_, fun c hc => List.mem_takeWhile_imp hc, hsign⟩,
    fun base => ?_, fun p spaces' sign' neg' a q hp hfront ha => ?_⟩
  · rw [← heq, List.takeWhile_append_dropWhile]
  · rw [start, skipSpace_append]
    simp only [Option.bind_eq_bind, Option.bind_some, hread]
    cases readPrefix base (u ++ [0]) <;> rfl
  · obtain ⟨hspace, h₁, h₂⟩ := digit_front ha
    obtain ⟨r, rfl⟩ := hp
    -- The first character behind the white space is the sign or the digit.
    obtain ⟨e, t, ht, he⟩ : ∃ e t, sign' ++ (a :: q ++ r) = e :: t ∧ isspace e = false := by
      rcases hfront.sign with ⟨rfl, rfl⟩ | ⟨rfl, rfl⟩ | ⟨rfl, rfl⟩
      · exact ⟨a, q ++ r, rfl, hspace⟩
      · exact ⟨43, a :: q ++ r, rfl, by decide⟩
      · exact ⟨45, a :: q ++ r, rfl, by decide⟩
    have hs : p ++ r = spaces' ++ e :: t := by
      rw [hfront.eq, ← ht, List.append_assoc, List.append_assoc]
    have htake : (p ++ r).takeWhile isspace = spaces' := by
      rw [hs, List.takeWhile_append_of_pos hfront.spaces,
        List.takeWhile_cons_of_neg (by rw [he]; decide), List.append_nil]
    have hdrop : (p ++ r).dropWhile isspace = e :: t := by
      rw [hs, List.dropWhile_append_of_pos hfront.spaces,
        List.dropWhile_cons_of_neg (by rw [he]; decide)]
    obtain ⟨rfl, rfl, hu⟩ := hunique sign' neg' a q (by
      rw [hdrop, ← ht, ← List.append_assoc]
      exact List.prefix_append _ _) hfront.sign h₁ h₂
    exact ⟨htake.symm, rfl, rfl, hu⟩

/-! ## Prefix -/

theorem readPrefix_hex (hbase : base = 0 ∨ base = 16) (hx : x = 120 ∨ x = 88) (t : List UInt8) :
    readPrefix base (48 :: x :: t ++ [0]) = some (16, t ++ [0]) := by
  simp [readPrefix, hbase, hx]

/-- The prefix of a hexadecimal number. -/
def Hex (base : ℕ) (u : List UInt8) : Prop := (base = 0 ∨ base = 16) ∧ ∃ x t, u = 48 :: x :: t ∧
  (x = 120 ∨ x = 88)

theorem readPrefix_of_not (h : ¬Hex base u) :
    readPrefix base (u ++ [0]) = some (resolveBase base (u.headD 0), u ++ [0]) := by
  cases u with
  | nil => simp [readPrefix]
  | cons c u =>
    by_cases hc : (base = 0 ∨ base = 16) ∧ c = 48
    · obtain ⟨hbase, rfl⟩ := hc
      cases u with
      | nil => simp [readPrefix]
      | cons x t =>
        have hx : ¬(x = 120 ∨ x = 88) := fun hx => h ⟨hbase, x, t, rfl, hx⟩
        simp [readPrefix, hx]
    · simp [readPrefix, hc]

/-! ## Digits -/

variable {pre : List UInt8}

/-- Digits that begin what is left of the string are among those that are gone through. -/
theorem prefix_takeWhile {q : UInt8 → Bool} (h : ds <+: u) (hds : ∀ c ∈ ds, q c = true) :
    ds <+: u.takeWhile q := by
  obtain ⟨r, rfl⟩ := h
  rw [List.takeWhile_append_of_pos hds]
  exact List.prefix_append _ _

/-- Without a prefix, the digits of an integer are in the base that has been resolved. -/
theorem body_of_not_hex (h : ¬Hex base u) (hq : pre ++ ds <+: u) (hpre : IsPrefix base b ds pre)
    (hne : ds ≠ [])
    (hds : ∀ c ∈ ds, valid b c = true) :
    pre = [] ∧ b = resolveBase base (u.headD 0) ∧
      ds <+: u.takeWhile (valid (resolveBase base (u.headD 0))) := by
  obtain ⟨d, ds, rfl⟩ := List.exists_cons_of_ne_nil hne
  rcases hpre with ⟨rfl, rfl⟩ | ⟨hbase, rfl, hpre⟩
  · obtain ⟨r, rfl⟩ := hq
    exact ⟨rfl, rfl, prefix_takeWhile (List.prefix_append _ r) hds⟩
  · obtain ⟨r, rfl⟩ := hq
    rcases hpre with rfl | rfl
    · exact absurd ⟨hbase, 120, _, rfl, .inl rfl⟩ h
    · exact absurd ⟨hbase, 88, _, rfl, .inr rfl⟩ h

/-- With one, they come behind it, or there is the zero only. -/
theorem body_of_hex (hbase : base = 0 ∨ base = 16) (hx : x = 120 ∨ x = 88)
    (hq : pre ++ ds <+: 48 :: x :: t)
    (hpre : IsPrefix base b ds pre) (hne : ds ≠ []) (hds : ∀ c ∈ ds, valid b c = true) :
    (pre ++ ds).length = 1 ∨ pre.length = 2 ∧ ds <+: t.takeWhile (valid 16) := by
  obtain ⟨d, ds, rfl⟩ := List.exists_cons_of_ne_nil hne
  rcases hpre with ⟨rfl, rfl⟩ | ⟨-, rfl, hpre⟩
  · obtain ⟨rfl, hrest⟩ := List.cons_prefix_cons.1 hq
    cases ds with
    | nil => exact .inl rfl
    | cons e ds =>
      -- The character of the prefix is not a digit.
      obtain rfl : e = x := (List.cons_prefix_cons.1 hrest).1
      have hinvalid : valid (resolveBase base 48) e = false := by
        rcases hbase with rfl | rfl <;> rcases hx with rfl | rfl <;> decide
      have hvalid := hds e (by simp)
      rw [List.headD_cons, hinvalid] at hvalid
      cases hvalid
  · have hbehind : ∀ {y}, 48 :: y :: d :: ds <+: 48 :: x :: t → d :: ds <+: t := fun h =>
      (List.cons_prefix_cons.1 (List.cons_prefix_cons.1 h).2).2
    rcases hpre with rfl | rfl
    · exact .inr ⟨rfl, prefix_takeWhile (hbehind hq) hds⟩
    · exact .inr ⟨rfl, prefix_takeWhile (hbehind hq) hds⟩

/-! ## Results -/

/-- What is returned for the digits at the beginning of `u`. -/
def outcome (k : Kind) (neg : Bool) (b : ℕ) (endptr : Bool) (u s : List UInt8) : Result :=
  let ds := u.takeWhile (valid b)
  let (value, erange) := if ds = [] then (0, false) else k.read neg (value b ds)
  ⟨value, erange, if endptr
    then some ((if ds = [] then s else u.dropWhile (valid b)) ++ [0]) else none⟩

/-- The result from the state at the end of the loop. -/
theorem outcome_of_saturated {M : ℕ} {emb : ℕ → ℤ} {limit : ℤ} (finish : Digits → ℤ)
    (hM : k.largest neg = M)
    (hlimit : k.limit neg = limit) (hval : ∀ n ≤ M, finish ⟨emb n, 1, false⟩ = k.val neg n)
    (hzero : finish ⟨0, 0, false⟩ = 0) (hover : finish ⟨limit, -1, true⟩ = limit) :
    let t := saturated b M emb limit (u.takeWhile (valid b))
    (⟨finish t, t.erange,
      storeEnd endptr t.any (u.dropWhile (valid b) ++ [0]) (s ++ [0])⟩ : Result) =
      outcome k neg b endptr u s := by
  simp only [outcome, saturated, storeEnd, Kind.read, hM, hlimit]
  by_cases hds : u.takeWhile (valid b) = []
  · simp [hds, hzero]
  · by_cases hle : value b (u.takeWhile (valid b)) ≤ M
    · simp [hds, hle, hval _ hle]
    · simp [hds, hle, hover]

theorem strtoimax_eq (h : start (s ++ [0]) base = some (neg, b, u ++ [0])) :
    strtoimax (s ++ [0]) endptr base = some (outcome intmax neg b endptr u s) := by
  rw [strtoimax, h]
  cases neg with
  | false =>
    simp only [Option.bind_eq_bind, Option.bind_some, Bool.false_eq_true, if_false,
      digitLoop_start (accumulates_pos b) u]
    exact congrArg some (outcome_of_saturated (fun t => t.acc) rfl rfl (fun _ _ => rfl) rfl rfl)
  | true =>
    simp only [Option.bind_eq_bind, Option.bind_some, if_true,
      digitLoop_start (accumulates_neg b) u]
    exact congrArg some (outcome_of_saturated (fun t => t.acc) rfl rfl (fun _ _ => rfl) rfl rfl)

theorem strtoumax_eq (h : start (s ++ [0]) base = some (neg, b, u ++ [0])) :
    strtoumax (s ++ [0]) endptr base = some (outcome uintmax neg b endptr u s) := by
  rw [strtoumax, h]
  simp only [Option.bind_eq_bind, Option.bind_some, digitLoop_start (accumulates_unsigned b) u]
  refine congrArg some
    (outcome_of_saturated (fun t => if neg ∧ t.any > 0 then u64 (-t.acc) else t.acc)
    rfl rfl (fun n _ => ?_) ?_ ?_)
  · cases neg <;> rfl
  · simp
  · simp

/-! ## Parsing -/

/-- What `exists_front` says of all integers from the start of the string. -/
def Only (s spaces sign : List UInt8) (neg : Bool) (u : List UInt8) : Prop :=
  ∀ p spaces' sign' neg' a q, p <+: s → Front p spaces' sign' neg' (a :: q) →
    (digit a).isSome = true →
    spaces' = spaces ∧ sign' = sign ∧ neg' = neg ∧ a :: q <+: u

/-- The parts of an integer from the start of the string. -/
theorem Form.parts {neg' : Bool} (hform : Form base neg' b ds p) (hp : p <+: s)
    (honly : Only s spaces sign neg u) :
    ∃ pre, p.length = spaces.length + (sign.length + (pre ++ ds).length) ∧ pre ++ ds <+: u ∧
      IsPrefix base b ds pre := by
  obtain ⟨spaces', sign', pre, hfront, hpre⟩ := hform.front
  obtain ⟨a, q, hq, ha⟩ : ∃ a q, pre ++ ds = a :: q ∧ (digit a).isSome = true := by
    rcases hpre with ⟨rfl, -⟩ | ⟨-, -, rfl | rfl⟩
    · obtain ⟨d, ds, rfl⟩ := List.exists_cons_of_ne_nil hform.ne_nil
      exact ⟨d, ds, rfl, isSome_of_valid (hform.valid d List.mem_cons_self)⟩
    · exact ⟨48, 120 :: ds, rfl, by decide⟩
    · exact ⟨48, 88 :: ds, rfl, by decide⟩
  rw [hq] at hfront
  obtain ⟨rfl, rfl, -, hu⟩ := honly p spaces' sign' neg' a q hp hfront ha
  refine ⟨pre, ?_, hq ▸ hu, hpre⟩
  rw [hfront.eq, hq, List.length_append, List.length_append]

/-- Where the string is bare is known from what is behind the sign. -/
theorem bare_iff (hfront : Front s spaces sign neg u) (honly : Only s spaces sign neg u) :
    Bare base s ↔ (base = 0 ∨ base = 16) ∧ ∃ x t, u = 48 :: x :: t ∧ (x = 120 ∨ x = 88) ∧
      ∀ c, t.head? = some c → valid 16 c = false := by
  refine and_congr_right fun _ =>
    ⟨?_, fun ⟨x, t, hu, hx, ht⟩ => ⟨spaces, sign, neg, x, t, hu ▸ hfront, hx, ht⟩⟩
  rintro ⟨spaces', sign', neg', x, t, hfront', hx, ht⟩
  obtain ⟨rfl, rfl, -, -⟩ :=
    honly s spaces' sign' neg' 48 (x :: t) List.prefix_rfl hfront' (by decide)
  have heq := hfront.eq.symm.trans hfront'.eq
  exact ⟨x, t, List.append_cancel_left (List.append_cancel_left heq), hx, ht⟩

/-- The digits that are gone through are parsed, if no integer is longer. -/
theorem parsed_of_digits (pre : List UInt8) (hfront : Front s spaces sign neg (pre ++ u))
    (hpre : IsPrefix base b (u.takeWhile (valid b)) pre)
    (hne : u.takeWhile (valid b) ≠ [])
    (hmax : ∀ neg' b' ds' p', p' <+: s → Form base neg' b' ds' p' →
      p'.length ≤ spaces.length + (sign.length + (pre.length + (u.takeWhile (valid b)).length))) :
    Parsed k base s (outcome k neg b endptr u s) := by
  have hsplit : u.takeWhile (valid b) ++ u.dropWhile (valid b) = u :=
    List.takeWhile_append_dropWhile
  refine .inl ⟨spaces ++ (sign ++ (pre ++ u.takeWhile (valid b))), u.dropWhile (valid b),
    neg, b, _, ?_,
    ⟨⟨⟨spaces, sign, pre, ⟨rfl, hfront.spaces, hfront.sign⟩, hpre⟩, hne,
    fun c hc => List.mem_takeWhile_imp hc⟩, ?_, ?_⟩, ?_, ?_⟩
  · rw [List.append_assoc, List.append_assoc, List.append_assoc, hsplit]
    exact hfront.eq
  · refine ⟨u.dropWhile (valid b), ?_⟩
    rw [List.append_assoc, List.append_assoc, List.append_assoc, hsplit]
    exact hfront.eq.symm
  · intro neg' b' ds' p' hp' hform
    rw [List.length_append, List.length_append, List.length_append]
    exact hmax neg' b' ds' p' hp' hform
  · simp [outcome, hne]
  · intro e he
    simp only [outcome, hne, if_false] at he
    split_ifs at he
    exact (Option.some_inj.1 he).symm

/-- With a prefix and digits behind it, the integer is hexadecimal. -/
theorem parsed_hex {spaces sign t : List UInt8} (hfront : Front s spaces sign neg (48 :: x :: t))
    (honly : Only s spaces sign neg (48 :: x :: t)) (hbase : base = 0 ∨ base = 16)
    (hx : x = 120 ∨ x = 88)
    (hne : t.takeWhile (valid 16) ≠ []) : Parsed k base s (outcome k neg 16 endptr t s) := by
  have hpre : IsPrefix base 16 (t.takeWhile (valid 16)) [48, x] :=
    .inr ⟨hbase, rfl, hx.imp (fun h => by rw [h]) fun h => by rw [h]⟩
  refine parsed_of_digits [48, x] hfront hpre hne fun neg' b' ds' p' hp' hform => ?_
  obtain ⟨pre, hlen, hq, hpre'⟩ := hform.parts hp' honly
  have hpos := List.length_pos_iff.2 hne
  rcases body_of_hex hbase hx hq hpre' hform.ne_nil hform.valid with hone | ⟨htwo, hds⟩
  · simp only [List.length_cons, List.length_nil]
    omega
  · have hle := hds.length_le
    rw [List.length_append] at hlen
    simp only [List.length_cons, List.length_nil]
    omega

/-- Without one, it is in the base that has been resolved, if there are digits. -/
theorem parsed_plain (hfront : Front s spaces sign neg u) (honly : Only s spaces sign neg u)
    (hhex : ¬Hex base u) :
    Parsed k base s (outcome k neg (resolveBase base (u.headD 0)) endptr u s) := by
  have hbody : ∀ neg' b' ds' p', p' <+: s → Form base neg' b' ds' p' →
      p'.length = spaces.length + (sign.length + ds'.length) ∧
        ds' <+: u.takeWhile (valid (resolveBase base (u.headD 0))) := by
    intro neg' b' ds' p' hp' hform
    obtain ⟨pre, hlen, hq, hpre⟩ := hform.parts hp' honly
    obtain ⟨rfl, -, hds⟩ := body_of_not_hex hhex hq hpre hform.ne_nil hform.valid
    exact ⟨hlen, hds⟩
  -- Without a digit there is no number, and the end is the start.
  by_cases hne : u.takeWhile (valid (resolveBase base (u.headD 0))) = []
  · refine .inr ⟨fun neg' b' ds' p' hp' hform =>
      hform.ne_nil ?_, by simp only [outcome, hne, if_true], fun e he => ?_⟩
    · obtain ⟨-, hds⟩ := hbody neg' b' ds' p' hp' hform
      rw [hne] at hds
      exact List.prefix_nil.1 hds
    · simp only [outcome, hne, if_true] at he
      split_ifs at he
      exact (Option.some_inj.1 he).symm
  · refine parsed_of_digits [] hfront (.inl ⟨rfl, ?_⟩) hne fun neg' b' ds' p' hp' hform => ?_
    · -- The digits begin with the character that the base has been resolved by.
      cases u with
      | nil => exact absurd rfl hne
      | cons c u =>
        by_cases hc : valid (resolveBase base c) c = true
        · simp [hc]
        · simp [hc] at hne
    · obtain ⟨hlen, hds⟩ := hbody neg' b' ds' p' hp' hform
      have hle := hds.length_le
      rw [List.length_nil]
      omega

/-- A zero on its own is an integer. -/
theorem form_zero (hspaces : ∀ c ∈ spaces, isspace c = true) (hsign : IsSign neg sign)
    (hbase : base = 0 ∨ base = 16) :
    Form base neg (resolveBase base 48) [48] (spaces ++ (sign ++ [48])) := by
  refine ⟨⟨spaces, sign, [], ⟨rfl, hspaces, hsign⟩, .inl ⟨rfl, rfl⟩⟩, List.cons_ne_nil 48 [],
    fun c hc => ?_⟩
  obtain rfl := List.mem_singleton.1 hc
  rcases hbase with rfl | rfl <;> decide

/-- With a prefix and no digit behind it, the zero is the integer, which is found if its end is not
    asked for. -/
theorem parsed_bare {spaces sign t : List UInt8} (hk : k.read neg 0 = (0, false))
    (hfront : Front s spaces sign neg (48 :: x :: t))
    (honly : Only s spaces sign neg (48 :: x :: t))
    (hbase : base = 0 ∨ base = 16) (hx : x = 120 ∨ x = 88) (hnil : t.takeWhile (valid 16) = []) :
    Parsed k base s (outcome k neg 16 endptr t s) ↔ endptr = false := by
  have hform := form_zero hfront.spaces hfront.sign hbase
  have hs : s = spaces ++ (sign ++ [48]) ++ x :: t := by
    rw [hfront.eq]
    simp
  have hp : spaces ++ (sign ++ [48]) <+: s := hs ▸ List.prefix_append _ _
  -- The value is zero either way; only the end that is reported is wrong.
  cases endptr with
  | false =>
    refine iff_of_true
      (.inl ⟨_, x :: t, neg, _, [48], hs, ⟨hform, hp, fun neg' b' ds' p' hp' hform' => ?_⟩,
      ?_, ?_⟩) rfl
    · obtain ⟨pre, hlen, hq, hpre⟩ := hform'.parts hp' honly
      rcases body_of_hex hbase hx hq hpre hform'.ne_nil hform'.valid with hone | ⟨-, hds⟩
      · rw [hlen, hone, List.length_append, List.length_append]
        rfl
      · rw [hnil] at hds
        exact absurd (List.prefix_nil.1 hds) hform'.ne_nil
    · have hzero : value (resolveBase base 48) [48] = 0 := by
        simp [value, digit, isdigit]
      rw [hzero, hk]
      simp [outcome, hnil]
    · intro e he
      simp [outcome] at he
  | true =>
    refine iff_of_false ?_ (by decide)
    rintro (⟨p, rest, neg', b', ds', heq, hlong, -, hend⟩ | ⟨hno, -⟩)
    · -- The end is the start of the string.
      have hrest : s ++ [0] = rest ++ [0] := hend _ (by simp [outcome, hnil])
      have hnil : p = [] := by
        have h := List.append_cancel_right hrest
        rw [heq] at h
        exact List.append_left_eq_self.1 h
      obtain ⟨pre, hlen, -, -⟩ := hlong.form.parts hlong.isPrefix honly
      have hpos := List.length_pos_iff.2 hlong.form.ne_nil
      rw [hnil, List.length_nil, List.length_append] at hlen
      omega
    · exact hno _ _ _ _ hp hform

/-- The longest integer is parsed, with its end at `endptr` if that is not null, and nothing is read
    behind the string. -/
def StrtoCorrect (f : List UInt8 → Bool → ℕ → Option Result) (k : Kind) (s : CStr) (base : ℕ)
    (endptr : Bool) : Prop :=
  ∃ r, f (s.1 ++ [0]) endptr base = some r ∧ r.endptr.isSome = endptr ∧ Parsed k base s.1 r

theorem strtoCorrect_iff {f : List UInt8 → Bool → ℕ → Option Result}
    (hk : ∀ neg, k.read neg 0 = (0, false))
    (hf : ∀ {s u : List UInt8} {neg b}, start (s ++ [0]) base = some (neg, b, u ++ [0]) →
      f (s ++ [0]) endptr base = some (outcome k neg b endptr u s)) (s : CStr) :
    StrtoCorrect f k s base endptr ↔ endptr = false ∨ ¬Bare base s.1 := by
  obtain ⟨spaces, sign, neg, u, hfront, hstart, honly⟩ := exists_front s.1
  have hcorrect : ∀ {b u'}, start (s.1 ++ [0]) base = some (neg, b, u' ++ [0]) →
      (StrtoCorrect f k s base endptr ↔ Parsed k base s.1 (outcome k neg b endptr u' s.1)) := by
    intro b u' h
    have hsome : (outcome k neg b endptr u' s.1).endptr.isSome = endptr := by
      cases endptr <;> rfl
    rw [StrtoCorrect, hf h]
    exact ⟨fun ⟨r, hr, _, hp⟩ => Option.some_inj.1 hr ▸ hp, fun hp => ⟨_, rfl, hsome, hp⟩⟩
  rw [bare_iff hfront honly]
  -- Only a bare `0x` in front of no digit is read wrong.
  by_cases hhex : Hex base u
  · obtain ⟨hbase, x, t, rfl, hx⟩ := hhex
    rw [hcorrect (by rw [hstart, readPrefix_hex hbase hx]; rfl)]
    by_cases hnil : t.takeWhile (valid 16) = []
    · rw [parsed_bare (hk neg) hfront honly hbase hx hnil]
      refine (or_iff_left (not_not_intro ⟨hbase, x, t, rfl, hx, fun c hc => ?_⟩)).symm
      obtain ⟨t, rfl⟩ := List.head?_eq_some_iff.1 hc
      cases hvalid : valid 16 c with
      | false => rfl
      | true => simp [hvalid] at hnil
    · refine iff_of_true (parsed_hex hfront honly hbase hx hnil)
        (.inr fun ⟨_, x', t', heq, _, hno⟩ => hnil ?_)
      obtain rfl : t = t' := (List.cons.inj (List.cons.inj heq).2).2
      cases t with
      | nil => rfl
      | cons c t => simp [hno c rfl]
  · rw [hcorrect (by rw [hstart, readPrefix_of_not hhex]; rfl)]
    exact iff_of_true (parsed_plain hfront honly hhex)
      (.inr fun ⟨hbase, x, t, heq, hx, _⟩ => hhex ⟨hbase, x, t, heq, hx⟩)

/-- When the longest integer is parsed. -/
theorem strto_iff (s : CStr) (base : ℕ) (endptr : Bool) :
    (StrtoCorrect strtoimax intmax s base endptr ↔ endptr = false ∨ ¬Bare base s.1) ∧
      (StrtoCorrect strtoumax uintmax s base endptr ↔ endptr = false ∨ ¬Bare base s.1) :=
  ⟨strtoCorrect_iff (fun neg => by cases neg <;> rfl) strtoimax_eq s,
    strtoCorrect_iff (fun neg => by cases neg <;> rfl) strtoumax_eq s⟩

/-- Of `"0x"`, the zero is an integer. -/
theorem not_strtoCorrect :
    ¬StrtoCorrect strtoimax intmax (CStr.ofChars ['0', 'x'] (by decide)) 0 true ∧
    ¬StrtoCorrect strtoumax uintmax (CStr.ofChars ['0', 'x'] (by decide)) 0 true := by
  have hform : Form 0 false 8 [48] ([] ++ ([] ++ [48])) :=
    form_zero (fun c hc => absurd hc List.not_mem_nil) (.inl ⟨rfl, rfl⟩) (.inl rfl)
  have hno : ∀ {k : Kind} {r : Result}, r.endptr = some [48, 120, 0] → ¬Parsed k 0 [48, 120] r := by
    rintro k r hend (⟨p, rest, neg, b, ds, heq, hlong, -, hrest⟩ | ⟨hnone, -⟩)
    · obtain rfl : [48, 120] = rest := List.append_cancel_right (hrest _ hend)
      have hle := hlong.longest false 8 [48] [48] ⟨[120], rfl⟩ hform
      rw [List.append_left_eq_self.1 heq.symm] at hle
      exact absurd hle (by decide)
    · exact hnone false 8 [48] [48] ⟨[120], rfl⟩ hform
  have hstart : start ([48, 120] ++ [0]) 0 = some (false, 16, [] ++ [0]) := rfl
  refine ⟨fun ⟨r, hr, _, hp⟩ => hno ?_ hp, fun ⟨r, hr, _, hp⟩ => hno ?_ hp⟩
  · obtain rfl := Option.some_inj.1 ((strtoimax_eq hstart).symm.trans hr)
    rfl
  · obtain rfl := Option.some_inj.1 ((strtoumax_eq hstart).symm.trans hr)
    rfl

end DemoOs.Inttypes
