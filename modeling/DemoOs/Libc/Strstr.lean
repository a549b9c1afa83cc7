import DemoOs.Vfs.Strings

/-!
# Searching a string

`strstr` (`strstr.cpp`). Where the string that is searched for begins, both are gone through as long
as they agree. If they do not agree up to its end, the search goes on where they have differed, not
behind the character where it began: the characters that have agreed are one piece, and nothing is
found that begins within it. So the first occurrence is found exactly if the text before it consists
of such pieces, and of characters with which the string that is searched for does not begin
(`Pieces`, `strstr_iff`).
-/

namespace DemoOs.CStr

/-- The inner loop, `while (*sub && *srcStr == *sub)`: what is left of both. -/
def matchLoop : List UInt8 → List UInt8 → Option (List UInt8 × List UInt8)
  | src, [] => some (src, [])
  | [], b :: sub => if 0 = b then none else some ([], b :: sub)
  | a :: src, b :: sub => if a = b then matchLoop src sub else some (a :: src, b :: sub)

/-- `while (*srcStr)`. -/
def strstrLoop (subStr : List UInt8) : ℕ → List UInt8 → Option (Option (List UInt8))
  | 0, _ => none
  | _ + 1, [] => some none
  | fuel + 1, a :: src =>
    if a = deref subStr then
      match matchLoop (a :: src) subStr with
      | none => none
      | some (srcStr, sub) =>
          if deref sub = 0 then some (some (a :: src)) else strstrLoop subStr fuel srcStr
    else strstrLoop subStr fuel src

/-- `strstr`: a null pointer, or what is left of the string from the occurrence on. -/
def strstr (fuel : ℕ) (srcStr subStr : List UInt8) : Option (Option (List UInt8)) :=
  if deref subStr = 0 then some (some srcStr) else strstrLoop subStr fuel srcStr

/-- The first occurrence of `t` in `s` has `pre` before it, and `u` from it on. -/
structure FirstOccurrence (s t pre u : List UInt8) : Prop where
  eq : s = pre ++ u
  occurs : t <+: u
  first : ∀ pre' u', s = pre' ++ u' → t <+: u' → pre.length ≤ pre'.length

/-- The first occurrence is found, and nothing read behind the ends. -/
def StrstrCorrect (fuel : ℕ) (s t : List UInt8) : Prop :=
  ∃ r, strstr fuel s t = some r ∧
    match r with
    | some u => ∃ pre, FirstOccurrence s t pre u
    | none => ¬t <:+: s

/-- The text before `u` consists of characters with which `t` does not begin, and of pieces of text
    which `t` begins with, and behind which is not what comes next in `t`. -/
inductive Pieces (t u : List UInt8) : List UInt8 → Prop
  | nil : Pieces t u []
  | skip {a pre} (hne : t.head? ≠ some a) (h : Pieces t u pre) : Pieces t u (a :: pre)
  | part {w b t' pre} (hw : w ≠ []) (ht : t = w ++ b :: t') (hne : (pre ++ u).head? ≠ some b)
      (h : Pieces t u pre) :
    Pieces t u (w ++ pre)

variable {s t u x pre : List UInt8} {fuel : ℕ} {r : Option (List UInt8)}

/-! ## Loops -/

/-- Two strings agree up to where they differ. -/
theorem exists_agreement (x t : List UInt8) :
    ∃ w x' t', x = w ++ x' ∧ t = w ++ t' ∧ ∀ b, t'.head? = some b → x'.head? ≠ some b := by
  induction t generalizing x with
  | nil => exact ⟨[], x, [], rfl, rfl, fun b hb => by simp at hb⟩
  | cons b t ih =>
    cases x with
    | nil => exact ⟨[], [], b :: t, rfl, rfl, fun b _ => by simp⟩
    | cons a x =>
      by_cases hab : a = b
      · subst hab
        obtain ⟨w, x', t', rfl, rfl, hne⟩ := ih x
        exact ⟨a :: w, x', t', rfl, rfl, hne⟩
      · refine ⟨[], a :: x, b :: t, rfl, rfl, fun b' hb' hx => hab ?_⟩
        exact (Option.some_inj.1 hx).trans (Option.some_inj.1 hb').symm

/-- Both strings are gone through as long as they agree. -/
theorem matchLoop_append {w x' t' : List UInt8} (ht : 0 ∉ w ++ t')
    (hne : ∀ b, t'.head? = some b → x'.head? ≠ some b) :
    matchLoop (w ++ x') (w ++ t') = some (x', t') := by
  induction w with
  | nil =>
    cases t' with
    | nil => cases x' <;> rfl
    | cons b t' =>
      cases x' with
      | nil =>
        have hb : (0 : UInt8) ≠ b := fun h => ht (by simp [h])
        rw [List.nil_append, List.nil_append, matchLoop, if_neg hb]
      | cons a x' =>
        have hab : a ≠ b := fun h => hne b rfl (congrArg some h)
        rw [List.nil_append, List.nil_append, matchLoop, if_neg hab]
  | cons a w ih =>
    rw [List.cons_append, List.cons_append, matchLoop, if_pos rfl]
    exact ih fun h => ht (List.mem_cons_of_mem a h)

/-- The loop ends, and where it finds something, pieces come before. -/
theorem strstrLoop_spec (ht : 0 ∉ t) (hfuel : x.length < fuel) :
    ∃ r, strstrLoop t fuel x = some r ∧ ∀ u, r = some u → ∃ pre, x = pre ++ u ∧ t <+: u ∧
      Pieces t u pre := by
  -- By induction on the fuel, each turn of the loop taking at least one character.
  induction fuel generalizing x with
  | zero => exact absurd hfuel (Nat.not_lt_zero _)
  | succ fuel ih =>
    cases x with
    | nil => exact ⟨none, by rw [strstrLoop], fun u hu => by simp at hu⟩
    | cons a src =>
      rw [List.length_cons] at hfuel
      by_cases ha : a = deref t
      · obtain ⟨w, x', t', hx, rfl, hne⟩ := exists_agreement (a :: src) t
        have hmatch : matchLoop (a :: src) (w ++ t') = some (x', t') := hx ▸ matchLoop_append ht hne
        rw [strstrLoop, if_pos ha, hmatch]
        dsimp only
        split_ifs with hend
        · obtain rfl : t' = [] := (deref_eq_zero_iff fun h => ht (List.mem_append_right w h)).1 hend
          refine ⟨_, rfl, fun u hu => ?_⟩
          obtain rfl : a :: src = u := Option.some_inj.1 hu
          exact ⟨[], rfl, hx ▸ by simp, .nil⟩
        · -- What has agreed is a piece, which is not empty.
          cases t' with
          | nil => exact absurd rfl hend
          | cons b t' =>
            have hw : w ≠ [] := by
              rintro rfl
              exact hne b rfl (by rw [← List.nil_append x', ← hx, ha]; rfl)
            have hlen : x'.length < fuel := by
              have h := congrArg List.length hx
              have hpos := List.length_pos_iff.2 hw
              rw [List.length_cons, List.length_append] at h
              omega
            obtain ⟨r, hr, hpieces⟩ := ih hlen
            refine ⟨r, hr, fun u hu => ?_⟩
            obtain ⟨pre, rfl, hocc, hp⟩ := hpieces u hu
            exact ⟨w ++ pre, by rw [hx, List.append_assoc], hocc, hp.part hw rfl (hne b rfl)⟩
      · rw [strstrLoop, if_neg ha]
        obtain ⟨r, hr, hpieces⟩ := ih (Nat.lt_of_succ_lt_succ hfuel)
        refine ⟨r, hr, fun u hu => ?_⟩
        obtain ⟨pre, rfl, hocc, hp⟩ := hpieces u hu
        refine ⟨a :: pre, rfl, hocc, hp.skip fun h => ha ?_⟩
        rw [deref, List.headD_eq_head?_getD, h, Option.getD_some]

/-- Where pieces come before an occurrence, the loop finds it. -/
theorem strstrLoop_of_pieces (ht : 0 ∉ t) (hne : t ≠ []) (hocc : t <+: u) (h : Pieces t u pre)
    (hfuel : pre.length < fuel) : strstrLoop t fuel (pre ++ u) = some (some u) := by
  obtain ⟨c, t₁, rfl⟩ := List.exists_cons_of_ne_nil hne
  -- By induction on the pieces the scan skips: single characters and partial matches.
  induction h generalizing fuel with
  | nil =>
    obtain ⟨fuel, rfl⟩ := Nat.exists_eq_succ_of_ne_zero (Nat.ne_zero_of_lt hfuel)
    obtain ⟨rest, rfl⟩ := hocc
    have hmatch : matchLoop (c :: t₁ ++ rest) (c :: t₁) = some (rest, []) := by
      have h : matchLoop (c :: t₁ ++ rest) (c :: t₁ ++ []) = some (rest, []) :=
        matchLoop_append (by rwa [List.append_nil]) fun b hb => by simp at hb
      rwa [List.append_nil] at h
    rw [List.nil_append, List.cons_append, strstrLoop, if_pos deref_cons.symm,
      ← List.cons_append, hmatch]
    rfl
  | skip hskip h ih =>
    obtain ⟨fuel, rfl⟩ := Nat.exists_eq_succ_of_ne_zero (Nat.ne_zero_of_lt hfuel)
    rw [List.cons_append, strstrLoop, if_neg fun h => hskip (congrArg some h.symm)]
    exact ih (Nat.lt_of_succ_lt_succ hfuel)
  | @part w b t' pre hw heq hdiff h ih =>
    obtain ⟨fuel, rfl⟩ := Nat.exists_eq_succ_of_ne_zero (Nat.ne_zero_of_lt hfuel)
    obtain ⟨a, w, rfl⟩ := List.exists_cons_of_ne_nil hw
    obtain rfl : c = a := (List.cons.inj heq).1
    have hb : b ≠ 0 := fun h => ht (by simp [heq, h])
    have hmatch : matchLoop (c :: w ++ (pre ++ u)) (c :: t₁) = some (pre ++ u, b :: t') := by
      rw [heq] at ht ⊢
      refine matchLoop_append ht fun b' hb' => ?_
      rwa [← Option.some_inj.1 hb']
    rw [List.append_assoc, List.cons_append, strstrLoop, if_pos deref_cons.symm,
      ← List.cons_append, hmatch]
    dsimp only
    rw [deref_cons, if_neg hb]
    refine ih ?_
    rw [List.cons_append, List.length_cons, List.length_append] at hfuel
    omega

/-! ## First occurrences -/

/-- A string that occurs has a first occurrence. -/
theorem exists_firstOccurrence (h : t <:+: s) : ∃ pre u, FirstOccurrence s t pre u := by
  induction s with
  | nil =>
    obtain rfl := List.infix_nil.1 h
    exact ⟨[], [], rfl, List.prefix_rfl, fun pre' u' _ _ => Nat.zero_le _⟩
  | cons a s ih =>
    by_cases hhead : t <+: a :: s
    · exact ⟨[], a :: s, rfl, hhead, fun pre' u' _ _ => Nat.zero_le _⟩
    · obtain ⟨pre, u, hs, hocc, hfirst⟩ := ih ((List.infix_cons_iff.1 h).resolve_left hhead)
      refine ⟨a :: pre, u, by rw [hs, List.cons_append], hocc, fun pre' u' heq hocc' => ?_⟩
      cases pre' with
      | nil =>
        rw [List.nil_append] at heq
        exact absurd (heq ▸ hocc') hhead
      | cons b pre' => exact Nat.succ_le_succ (hfirst pre' u' (List.cons.inj heq).2 hocc')

theorem FirstOccurrence.unique {pre' u' : List UInt8} (h : FirstOccurrence s t pre u)
    (h' : FirstOccurrence s t pre' u') :
    pre = pre' ∧ u = u' :=
  List.append_inj (h.eq.symm.trans h'.eq)
    ((h.first pre' u' h'.eq h'.occurs).antisymm (h'.first pre u h.eq h.occurs))

/-- The empty string occurs at the start. -/
theorem firstOccurrence_nil : FirstOccurrence s [] [] s :=
  ⟨rfl, List.nil_prefix, fun _ _ _ _ => Nat.zero_le _⟩

/-- `strstr` is right exactly if the text before the first occurrence consists of pieces. -/
theorem strstr_iff (s t : CStr) (hfuel : s.1.length < fuel) :
    StrstrCorrect fuel s.1 t.1 ↔ ∀ pre u, FirstOccurrence s.1 t.1 pre u → Pieces t.1 u pre := by
  by_cases ht : t.1 = []
  · rw [ht]
    refine iff_of_true ⟨some s.1, rfl, [], firstOccurrence_nil⟩ fun pre u h => ?_
    obtain ⟨rfl, -⟩ := h.unique firstOccurrence_nil
    exact .nil
  have hrun : strstr fuel s.1 t.1 = strstrLoop t.1 fuel s.1 :=
    if_neg fun h => ht ((deref_eq_zero_iff t.2).1 h)
  rw [StrstrCorrect, hrun]
  constructor
  · rintro ⟨r, hr, hcorrect⟩ pre u h
    obtain ⟨r', hr', hpieces⟩ := strstrLoop_spec t.2 hfuel
    obtain rfl : r' = r := Option.some_inj.1 (hr'.symm.trans hr)
    cases r' with
    | none =>
        exact absurd (h.eq ▸ h.occurs.isInfix.trans (List.suffix_append pre u).isInfix) hcorrect
    | some v =>
      -- What has been found is the first occurrence, and pieces come before what has been found.
      obtain ⟨pre₁, h₁⟩ := hcorrect
      obtain ⟨pre₂, heq, -, hp⟩ := hpieces v rfl
      obtain ⟨rfl, rfl⟩ := h.unique h₁
      rwa [List.append_cancel_right (h.eq.symm.trans heq)]
  · intro hcond
    by_cases hocc : t.1 <:+: s.1
    · obtain ⟨pre, u, h⟩ := exists_firstOccurrence hocc
      refine ⟨some u, ?_, pre, h⟩
      have hlen : pre.length < fuel := by
        have h := congrArg List.length h.eq
        rw [List.length_append] at h
        omega
      rw [h.eq]
      exact strstrLoop_of_pieces t.2 ht h.occurs (hcond pre u h) hlen
    · obtain ⟨r, hr, hpieces⟩ := strstrLoop_spec t.2 hfuel
      refine ⟨r, hr, ?_⟩
      cases r with
      | none => exact hocc
      | some u =>
        obtain ⟨pre, heq, hpre, -⟩ := hpieces u rfl
        exact absurd (heq ▸ hpre.isInfix.trans (List.suffix_append pre u).isInfix) hocc

/-- In `"abab"` there is `"ab"` at the start. -/
theorem strstr_abab :
    StrstrCorrect 5 (ofChars ['a', 'b', 'a', 'b'] (by decide)).1
    (ofChars ['a', 'b'] (by decide)).1 := by
  refine (strstr_iff (ofChars ['a', 'b', 'a', 'b'] (by decide)) (ofChars ['a', 'b'] (by decide))
    (by decide)).2
    fun pre u h => ?_
  have hle : pre.length ≤ 0 := h.first [] [97, 98, 97, 98] rfl ⟨[97, 98], rfl⟩
  obtain rfl : pre = [] := List.length_eq_zero_iff.1 (Nat.le_zero.1 hle)
  exact .nil

/-- In `"aaab"`, `"aab"` is not found. -/
theorem not_strstrCorrect :
    ¬StrstrCorrect 5 (ofChars ['a', 'a', 'a', 'b'] (by decide)).1
      (ofChars ['a', 'a', 'b'] (by decide)).1 := by
  rintro ⟨r, hr, hcorrect⟩
  obtain rfl : none = r := Option.some_inj.1 ((show _ = some none by decide).symm.trans hr)
  exact hcorrect ⟨[97], [], rfl⟩

end DemoOs.CStr
