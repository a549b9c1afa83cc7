import DemoOs.Lib.Components
import DemoOs.Vfs.Strings
import Mathlib.Tactic.Tauto

/-!
# Strings that are paths

The functions of `vfs.cpp` that look at a path as a string: `baseName` and `dirName` split it, in
place, and `fileNameIsLegal` looks at its last name.

* `baseName` and `dirName` go backwards. They come to a stop at a byte that is not a separator, or
  is one, so a path of separators, or, in `dirName`, one without a separator before the last name,
  leads them in front of it (`baseNames_iff`, `dirNames_iff`).
* `fileNameIsLegal` finds no illegal character, as `strchr` finds none, and it accepts the names `.`
  and `..` where there is no separator before them (`fileNameIsLegal_iff`).
-/

namespace DemoOs

namespace Vfs

open CStr Components

/-- The separator of a path. -/
def isPathSeparator (c : UInt8) : Bool := c = pathSeparator

/-- The names in a path. -/
def pathNames (path : List UInt8) : List (List UInt8) := components isPathSeparator path

theorem isPathSeparator_eq_false {n : List UInt8} :
    (∀ c ∈ n, isPathSeparator c = false) ↔ pathSeparator ∉ n := by
  constructor
  · intro h hmem
    exact absurd (h _ hmem) (by simp [isPathSeparator])
  · rintro h c hc
    exact decide_eq_false fun heq => h (heq ▸ hc)

/-- A path with other bytes than separators has a last name. -/
theorem exists_lastName {path : List UInt8} (h : ∃ c ∈ path, c ≠ pathSeparator) :
    ∃ n seps, n ≠ [] ∧ pathSeparator ∉ n ∧ (∀ c ∈ seps, c = pathSeparator) ∧
      (path = n ++ seps ∨ ∃ pre, path = pre ++ pathSeparator :: n ++ seps) := by
  obtain ⟨n, seps, hn, hsep, hseps, hpath⟩ :=
    exists_last (p := isPathSeparator) (by simpa [isPathSeparator] using h)
  refine ⟨n, seps, hn, isPathSeparator_eq_false.1 hsep,
    fun c hc => of_decide_eq_true (hseps c hc), ?_⟩
  rcases hpath with hpath | ⟨pre, a, ha, hpath⟩
  · exact .inl hpath
  · obtain rfl : a = pathSeparator := of_decide_eq_true ha
    exact .inr ⟨pre, hpath⟩

theorem pathNames_append {n seps : List UInt8} (hn : n ≠ []) (hsep : pathSeparator ∉ n)
    (hseps : ∀ c ∈ seps, c = pathSeparator) : pathNames (n ++ seps) = [n] := by
  rw [pathNames, components_append_of_forall (p := isPathSeparator) fun c hc =>
    decide_eq_true (hseps c hc)]
  exact components_eq_singleton hn (isPathSeparator_eq_false.2 hsep)

theorem pathNames_append_cons {pre n seps : List UInt8} (hn : n ≠ []) (hsep : pathSeparator ∉ n)
    (hseps : ∀ c ∈ seps, c = pathSeparator) :
    pathNames (pre ++ pathSeparator :: n ++ seps) = pathNames pre ++ [n] := by
  rw [pathNames, components_append_of_forall (p := isPathSeparator) fun c hc =>
    decide_eq_true (hseps c hc), components_append_cons (by decide),
    components_eq_singleton hn (isPathSeparator_eq_false.2 hsep)]
  rfl

/-- The last name of a path is where it ends, but for separators. -/
theorem eq_of_getLast?_pathNames {path n : List UInt8} (h : (pathNames path).getLast? = some n) :
    n ≠ [] ∧ pathSeparator ∉ n ∧ ∃ seps, (∀ c ∈ seps, c = pathSeparator) ∧
      (path = n ++ seps ∨ ∃ pre, path = pre ++ pathSeparator :: n ++ seps) := by
  have hexists : ∃ c ∈ path, c ≠ pathSeparator := by
    by_contra hall
    push Not at hall
    have hnil : pathNames ([] ++ path) = [] :=
      components_append_of_forall (p := isPathSeparator) fun c hc => decide_eq_true (hall c hc)
    rw [← List.nil_append path, hnil] at h
    exact nomatch h
  obtain ⟨n', seps, hn, hsep, hseps, rfl | ⟨pre, rfl⟩⟩ := exists_lastName hexists
  · rw [pathNames_append hn hsep hseps] at h
    obtain rfl : n' = n := Option.some.inj h
    exact ⟨hn, hsep, seps, hseps, .inl rfl⟩
  · rw [pathNames_append_cons hn hsep hseps, List.getLast?_concat] at h
    obtain rfl : n' = n := Option.some.inj h
    exact ⟨hn, hsep, seps, hseps, .inr ⟨pre, rfl⟩⟩

/-! ## Splitting a path -/

/-- The loop that `dirName` and `baseName` begin with. The pointer is given by the number of bytes
    from the beginning of the path up to it, so that it is zero right in front of the path; a byte
    that is not in the path is not read (none). Here and below `len` is not zero when it is counted
    down. -/
def skipSeparators (path : List UInt8) : ℕ → ℕ → Option (ℕ × ℕ)
  | 0, _ => none
  | p + 1, len =>
    match path[p]? with
    | none => none
    | some c => if c = pathSeparator then skipSeparators path p (len - 1) else some (p + 1, len)

/-- The second loop of `dirName`. -/
def skipName (path : List UInt8) : ℕ → ℕ → Option (ℕ × ℕ)
  | 0, len => if len > 0 then none else some (0, len)
  | p + 1, len =>
    if len > 0 then
      match path[p]? with
      | none => none
      | some c => if c ≠ pathSeparator then skipName path p (len - 1) else some (p + 1, len)
    else some (p + 1, len)

/-- Ending the path where the pointer is, if that is in the path. -/
def putEos (path : List UInt8) : ℕ → Option (List UInt8)
  | 0 => none
  | p + 1 => if p < path.length then some (path.set p 0) else none

/-- The string in a buffer. -/
def stringOf (buf : List UInt8) : List UInt8 := buf.takeWhile (· ≠ 0)

/-- `VFS::dirName`, in a buffer with the path and the zero at its end. -/
def dirName (path : List UInt8) (len : ℕ) : Option (List UInt8) := do
  let (p, len) ← skipSeparators path len len
  if len = 0 then some path
  else do
    let (p, _) ← skipName path p len
    putEos path p

/-- `VFS::baseName`, with the place that is returned. -/
def baseName (path : List UInt8) (len : ℕ) : Option (ℕ × List UInt8) := do
  let (p, len) ← skipSeparators path len len
  let path ← putEos path (p + 1)
  if len ≠ 0 then
    match strrchr (stringOf path) pathSeparator with
    | none => some (0, path)
    | some pos => some ((stringOf path).length - pos.length + 1, path)
  else some (p, path)

variable {path n seps pre : List UInt8}

theorem skipSeparators_append (hn : n ≠ []) (hsep : pathSeparator ∉ n)
    (hseps : ∀ c ∈ seps, c = pathSeparator) (pre rest : List UInt8) :
    skipSeparators (pre ++ n ++ seps ++ rest) (pre ++ n ++ seps).length (pre ++ n ++ seps).length =
      some ((pre ++ n).length, (pre ++ n).length) := by
  induction seps using List.reverseRecOn generalizing rest with
  | nil =>
    obtain ⟨n', c, rfl⟩ := (List.eq_nil_or_concat' n).resolve_left hn
    have hc : c ≠ pathSeparator := fun h => hsep (by simp [h])
    have hget : (pre ++ (n' ++ [c]) ++ [] ++ rest)[(pre ++ n').length]? = some c := by simp
    have hlen : (pre ++ (n' ++ [c]) ++ []).length = (pre ++ n').length + 1 := by
      simp [Nat.add_assoc]
    rw [hlen, skipSeparators, hget]
    simp [hc, Nat.add_assoc]
  | append_singleton seps c ih =>
    obtain rfl : c = pathSeparator := hseps c (List.mem_append_right _ List.mem_cons_self)
    have hget : (pre ++ n ++ (seps ++ [pathSeparator]) ++ rest)[(pre ++ n ++ seps).length]? =
        some pathSeparator := by
      rw [← List.append_assoc (pre ++ n), List.append_assoc (pre ++ n ++ seps)]
      simp
    have hlen : (pre ++ n ++ (seps ++ [pathSeparator])).length = (pre ++ n ++ seps).length + 1 := by
      simp [Nat.add_assoc]
    have hback := ih (fun c hc => hseps c (List.mem_append_left _ hc)) (pathSeparator :: rest)
    rw [hlen, skipSeparators, hget]
    simp only [if_true, Nat.add_sub_cancel]
    rw [← hback]
    simp

/-- The pointer runs in front of a path of separators. -/
theorem skipSeparators_eq_none (hseps : ∀ c ∈ seps, c = pathSeparator)
    (rest : List UInt8) (len : ℕ) :
    skipSeparators (seps ++ rest) seps.length len = none := by
  induction seps using List.reverseRecOn generalizing rest len with
  | nil => rfl
  | append_singleton seps c ih =>
    obtain rfl : c = pathSeparator := hseps c (List.mem_append_right _ List.mem_cons_self)
    have hget : (seps ++ [pathSeparator] ++ rest)[seps.length]? = some pathSeparator := by simp
    rw [List.length_append, List.length_singleton, skipSeparators, hget]
    simp only [if_true]
    have hback :=
      ih (fun c hc => hseps c (List.mem_append_left _ hc)) (pathSeparator :: rest) (len - 1)
    rwa [List.append_cons] at hback

/-- The pointer goes back over a name, to what is before it. -/
theorem skipName_append (pre : List UInt8) (hsep : pathSeparator ∉ n) (rest : List UInt8) :
    skipName (pre ++ n ++ rest) (pre ++ n).length (pre ++ n).length =
      skipName (pre ++ n ++ rest) pre.length pre.length := by
  induction n using List.reverseRecOn generalizing rest with
  | nil => simp
  | append_singleton n c ih =>
    have hc : c ≠ pathSeparator := fun h => hsep (by simp [h])
    have hget : (pre ++ (n ++ [c]) ++ rest)[(pre ++ n).length]? = some c := by
      rw [← List.append_assoc pre, List.append_assoc (pre ++ n)]
      simp
    have hlen : (pre ++ (n ++ [c])).length = (pre ++ n).length + 1 := by simp [Nat.add_assoc]
    have hback := ih (fun h => hsep (List.mem_append_left _ h)) (c :: rest)
    rw [hlen, skipName, if_pos (Nat.succ_pos _), hget]
    simp only [hc, ne_eq, not_false_eq_true, if_true, Nat.add_sub_cancel]
    simpa using hback

theorem stringOf_append {s : List UInt8} (hs : 0 ∉ s) (rest : List UInt8) :
    stringOf (s ++ 0 :: rest) = s := by
  have hne (c : UInt8) (hc : c ∈ s) : decide (c ≠ 0) = true :=
    decide_eq_true fun h : c = 0 => hs (h ▸ hc)
  rw [stringOf, List.takeWhile_append_of_pos hne]
  simp

theorem putEos_append {s : List UInt8} {c : UInt8} (rest : List UInt8) :
    putEos (s ++ c :: rest) (s.length + 1) = some (s ++ 0 :: rest) := by
  rw [putEos, if_pos (by simp), List.set_append_right _ _ (Nat.le_refl _), Nat.sub_self]
  rfl

/-- `baseName` keeps to the path and the zero at its end, and returns its last name, or the empty
    string if there is none. -/
def BaseNames (path : CStr) : Prop :=
  ∃ q buf, baseName (path.1 ++ [0]) (strlen path.1) = some (q, buf) ∧
    buf.length = path.1.length + 1 ∧
    q ≤ path.1.length ∧ stringOf (buf.drop q) = ((pathNames path.1).getLast?).getD []

/-- The separator before the last name of a path splits it. -/
def SplitsAt (path pre : List UInt8) : Prop :=
  ∃ n seps, path = pre ++ pathSeparator :: n ++ seps ∧ n ≠ [] ∧ pathSeparator ∉ n ∧
    ∀ c ∈ seps, c = pathSeparator

/-- `dirName` keeps to the path and the zero at its end, and leaves in it what is before the
    separator that precedes the last name. -/
def DirNames (path : CStr) : Prop :=
  ∃ buf, dirName (path.1 ++ [0]) (strlen path.1) = some buf ∧ buf.length = path.1.length + 1 ∧
    ∀ pre, SplitsAt path.1 pre → stringOf buf = pre

/-- `baseName` ends the path where its last name ends. -/
theorem baseName_append (pre : List UInt8) (hn : n ≠ []) (hsep : pathSeparator ∉ n)
    (hseps : ∀ c ∈ seps, c = pathSeparator) (hzero : 0 ∉ pre ++ n) :
    ∃ rest, (pre ++ n ++ seps ++ [0]).length = (pre ++ n ++ 0 :: rest).length ∧
      baseName (pre ++ n ++ seps ++ [0]) (pre ++ n ++ seps).length =
        match strrchr (pre ++ n) pathSeparator with
        | none => some (0, pre ++ n ++ 0 :: rest)
        | some pos => some ((pre ++ n).length - pos.length + 1, pre ++ n ++ 0 :: rest) := by
  obtain ⟨c, rest, hrest⟩ := List.exists_cons_of_ne_nil (by simp : seps ++ [0] ≠ [])
  have hpath : pre ++ n ++ seps ++ [0] = pre ++ n ++ c :: rest := by rw [List.append_assoc, hrest]
  have hlen : (pre ++ n).length ≠ 0 := by simp [hn]
  refine ⟨rest, by rw [hpath]; simp, ?_⟩
  rw [baseName, skipSeparators_append hn hsep hseps pre [0]]
  simp only [Option.bind_eq_bind, Option.bind_some]
  rw [hpath, putEos_append, Option.bind_some, if_pos hlen, stringOf_append hzero]

theorem baseNames_iff (path : CStr) : BaseNames path ↔ ∃ c ∈ path.1, c ≠ pathSeparator := by
  obtain ⟨path, hzero⟩ := path
  constructor
  · rintro ⟨q, buf, hbase, -⟩
    by_contra hall
    push Not at hall
    rw [baseName, strlen, skipSeparators_eq_none hall [0]] at hbase
    exact nomatch hbase
  · intro h
    -- The last name, and the separators behind it; there may be something before it.
    obtain ⟨n, seps, hn, hsep, hseps, rfl | ⟨pre, rfl⟩⟩ := exists_lastName h
    · have hn0 : 0 ∉ n := fun h => hzero (List.mem_append_left _ h)
      obtain ⟨rest, hlen, hbase⟩ := baseName_append [] hn hsep hseps hn0
      rw [List.nil_append, strrchr_of_not_mem hsep] at hbase
      refine ⟨0, n ++ 0 :: rest, hbase, ?_, Nat.zero_le _, ?_⟩
      · exact hlen.symm.trans (List.length_append ..)
      · rw [List.drop_zero, stringOf_append hn0, pathNames_append hn hsep hseps]
        rfl
    · have hpre : 0 ∉ pre ++ [pathSeparator] ++ n := by
        rw [← List.append_cons]
        exact fun h => hzero (List.mem_append_left _ h)
      have hn0 : 0 ∉ n := fun h => hpre (List.mem_append_right _ h)
      obtain ⟨rest, hlen, hbase⟩ := baseName_append (pre ++ [pathSeparator]) hn hsep hseps hpre
      rw [← List.append_cons, strrchr_append hsep] at hbase
      refine ⟨pre.length + 1, pre ++ pathSeparator :: n ++ 0 :: rest, ?_, ?_, ?_, ?_⟩
      · simpa [strlen] using hbase
      · rw [← List.append_cons] at hlen
        exact hlen.symm.trans (List.length_append ..)
      · simp
      · have hdrop :
            (pre ++ pathSeparator :: n ++ 0 :: rest).drop (pre.length + 1) = n ++ 0 :: rest := by
          rw [List.append_cons pre, List.append_assoc]
          exact List.drop_left' (by simp)
        rw [hdrop, stringOf_append hn0, pathNames_append_cons hn hsep hseps]
        simp

/-- `dirName` ends the path at the separator before its last name. -/
theorem dirName_of_splitsAt (h : SplitsAt path pre) :
    ∃ rest, dirName (path ++ [0]) path.length = some (pre ++ 0 :: rest) ∧
      (pre ++ 0 :: rest).length = path.length + 1 := by
  obtain ⟨n, seps, rfl, hn, hsep, hseps⟩ := h
  have hget : (pre ++ [pathSeparator] ++ n ++ seps ++ [0])[pre.length]? = some pathSeparator := by
    simp
  have hskip := skipName_append (pre ++ [pathSeparator]) hsep (seps ++ [0])
  have hlen : (pre ++ [pathSeparator] ++ n).length ≠ 0 := by simp
  refine ⟨n ++ seps ++ [0], ?_, by simp [Nat.add_assoc]⟩
  rw [List.append_cons pre, dirName, skipSeparators_append hn hsep hseps _ [0]]
  simp only [Option.bind_eq_bind, Option.bind_some]
  rw [if_neg hlen, List.append_assoc _ seps, hskip, ← List.append_assoc _ seps, List.length_append,
    List.length_singleton, skipName, if_pos (Nat.succ_pos _), hget]
  simp only [ne_eq, not_true_eq_false, if_false, Option.bind_some]
  have hput := putEos_append (s := pre) (c := pathSeparator) (n ++ seps ++ [0])
  simpa using hput

/-- Without a separator before the last name, `dirName` writes in front of the path. -/
theorem dirName_eq_none (hn : n ≠ []) (hsep : pathSeparator ∉ n)
    (hseps : ∀ c ∈ seps, c = pathSeparator) :
    dirName (n ++ seps ++ [0]) (n ++ seps).length = none := by
  have hskip := skipName_append [] hsep (seps ++ [0])
  have hlen : n.length ≠ 0 := by simpa using hn
  have hend := skipSeparators_append hn hsep hseps [] [0]
  simp only [List.nil_append] at hskip hend
  rw [dirName, hend]
  simp only [Option.bind_eq_bind, Option.bind_some]
  rw [if_neg hlen, List.append_assoc, hskip]
  rfl

theorem dirNames_iff (path : CStr) : DirNames path ↔ ∃ pre, SplitsAt path.1 pre := by
  obtain ⟨path, hzero⟩ := path
  constructor
  · rintro ⟨buf, hdir, -⟩
    by_contra hnone
    by_cases h : ∃ c ∈ path, c ≠ pathSeparator
    · obtain ⟨n, seps, hn, hsep, hseps, rfl | ⟨pre, rfl⟩⟩ := exists_lastName h
      · exact nomatch (dirName_eq_none hn hsep hseps).symm.trans hdir
      · exact hnone ⟨pre, n, seps, rfl, hn, hsep, hseps⟩
    · push Not at h
      rw [dirName, strlen, skipSeparators_eq_none h [0]] at hdir
      exact nomatch hdir
  · rintro ⟨pre, hsplit⟩
    obtain ⟨rest, hdir, hlen⟩ := dirName_of_splitsAt hsplit
    refine ⟨_, hdir, hlen, fun pre' hsplit' => ?_⟩
    obtain ⟨rest', hdir', -⟩ := dirName_of_splitsAt hsplit'
    have hpre' : 0 ∉ pre' := by
      obtain ⟨n, seps, rfl, -⟩ := hsplit'
      exact fun h => hzero (List.mem_append_left _ (List.mem_append_left _ h))
    rw [Option.some.inj (hdir.symm.trans hdir'), stringOf_append hpre']

/-- Both functions split a path as they should just if there is a separator before its last name. -/
theorem splits_iff (path : CStr) :
    BaseNames path ∧ DirNames path ↔ ∃ pre, SplitsAt path.1 pre := by
  rw [baseNames_iff, dirNames_iff, and_iff_right_iff_imp]
  rintro ⟨pre, n, seps, hpath, hn, hsep, -⟩
  obtain ⟨c, n', rfl⟩ := List.exists_cons_of_ne_nil hn
  exact ⟨c, by simp [hpath], fun hc => hsep (hc ▸ List.mem_cons_self)⟩

/-- In `/` both of them run in front of the path, in `a` only `dirName` does. -/
theorem not_splits : ¬BaseNames (.ofChars ['/'] (by decide)) ∧
    ¬DirNames (.ofChars ['/'] (by decide)) ∧
    ¬DirNames (.ofChars ['a'] (by decide)) := by
  refine ⟨?_, ?_, ?_⟩
  · rintro ⟨q, buf, h, -⟩
    exact nomatch (by decide : baseName [47, 0] 1 = none).symm.trans h
  · rintro ⟨buf, h, -⟩
    exact nomatch (by decide : dirName [47, 0] 1 = none).symm.trans h
  · rintro ⟨buf, h, -⟩
    exact nomatch (by decide : dirName [97, 0] 1 = none).symm.trans h

/-! ## Legal names -/

/-- `_fileNameIllegalCharStr`. -/
def fileNameIllegalCharStr : List UInt8 :=
  ['\\', '*', '?', '<', '>', ':', '"', '|', '\t', '\r', '\n'].map Char.toUInt8

/-- The dot. -/
def dot : UInt8 := 46

/-- The test of what follows the last separator: it is empty, or it is one dot, or two. -/
def isSpecial (name : List UInt8) : Bool :=
  deref name = 0 ||
    deref name = dot &&
      (deref name.tail = 0 || deref name.tail = dot && deref name.tail.tail = 0)

/-- The loop over the characters. -/
def charsAreLegal : List UInt8 → Option Bool
  | [] => some true
  | c :: s => do
    match ← strchr fileNameIllegalCharStr c with
    | some _ => some false
    | none => charsAreLegal s

/-- `VFS::fileNameIsLegal`, of a name that is not null. -/
def fileNameIsLegal (fileName : List UInt8) : Option Bool :=
  if deref fileName = 0 then some false
  else if (strrchr fileName pathSeparator).any fun pcTemp => isSpecial pcTemp.tail then some false
  else charsAreLegal fileName

/-- What follows the last separator, or everything if there is none. -/
def lastPart (s : List UInt8) : List UInt8 := (s.splitOnP isPathSeparator).getLastD []

/-- An empty name, `.` or `..`. -/
def Special (name : List UInt8) : Prop := name = [] ∨ name = [dot] ∨ name = [dot, dot]

/-- A name is legal if it is not empty, has no illegal characters, and its last part is not
    special. -/
def LegalName (s : List UInt8) : Prop :=
  s ≠ [] ∧ (∀ c ∈ s, c ∉ fileNameIllegalCharStr) ∧ ¬Special (lastPart s)

theorem isSpecial_iff {name : List UInt8} (h : 0 ∉ name) : isSpecial name ↔ Special name := by
  have hdot : dot ≠ 0 := by decide
  cases name with
  | nil => exact iff_of_true rfl (.inl rfl)
  | cons a name =>
    have ha : a ≠ 0 := fun h' => h (h' ▸ List.mem_cons_self)
    cases name with
    | nil => simp [isSpecial, Special, deref, ha]
    | cons b name =>
      have hb : b ≠ 0 := fun h' => h (h' ▸ List.mem_cons_of_mem a List.mem_cons_self)
      cases name with
      | nil => simp [isSpecial, Special, deref, ha, hb]
      | cons c name =>
        have hc : c ≠ 0 := fun h' => h (by simp [h'])
        simp [isSpecial, Special, deref, ha, hb, hc]

/-- `strchr` finds no character in a string that is not empty. -/
theorem charsAreLegal_eq (s : List UInt8) : charsAreLegal s = some true := by
  induction s with
  | nil => rfl
  | cons c s ih =>
    rw [charsAreLegal, strchr_of_ne_nil (by decide) (by decide)]
    exact ih

theorem lastPart_of_not_mem {s : List UInt8} (h : pathSeparator ∉ s) : lastPart s = s := by
  rw [lastPart, List.splitOnP_eq_singleton (isPathSeparator_eq_false.2 h)]
  rfl

theorem lastPart_append {s : List UInt8} (h : pathSeparator ∉ n) :
    lastPart (s ++ pathSeparator :: n) = n := by
  rw [lastPart, List.splitOnP_append_cons s n (by decide),
    List.splitOnP_eq_singleton (isPathSeparator_eq_false.2 h)]
  simp

/-- The last part is looked at only if there is a separator before it. -/
theorem any_isSpecial_iff {s : List UInt8} (hs : 0 ∉ s) :
    ((strrchr s pathSeparator).any fun pcTemp => isSpecial pcTemp.tail) ↔
      pathSeparator ∈ s ∧ Special (lastPart s) := by
  by_cases h : pathSeparator ∈ s
  · obtain ⟨pre, a, n, ha, hn, rfl⟩ := exists_last_sep (p := isPathSeparator) ⟨_, h, by decide⟩
    obtain rfl : a = pathSeparator := of_decide_eq_true ha
    have hn := isPathSeparator_eq_false.1 hn
    have hzero : 0 ∉ n := fun h => hs (List.mem_append_right _ (List.mem_cons_of_mem _ h))
    rw [strrchr_append hn, lastPart_append hn, Option.any_some, List.tail_cons, isSpecial_iff hzero]
    exact (and_iff_right h).symm
  · rw [strrchr_of_not_mem h]
    exact iff_of_false Bool.false_ne_true fun h' => h h'.1

theorem fileNameIsLegal_eq_true_iff (s : CStr) :
    fileNameIsLegal s.1 = some true ↔
      s.1 ≠ [] ∧ ¬(pathSeparator ∈ s.1 ∧ Special (lastPart s.1)) := by
  rw [fileNameIsLegal, charsAreLegal_eq, ← any_isSpecial_iff s.2, Ne, ← deref_eq_zero_iff s.2]
  split_ifs with hnil hspecial
  · simp [hnil]
  · simp [hspecial]
  · exact iff_of_true rfl ⟨hnil, hspecial⟩

/-- The legal names are accepted, and no others, just if the name is refused for its length or for
    its last part, or has no illegal characters and is not one dot or two. -/
theorem fileNameIsLegal_iff (s : CStr) :
    (fileNameIsLegal s.1 = some true ↔ LegalName s.1) ↔
      s.1 = [] ∨ (pathSeparator ∈ s.1 ∧ Special (lastPart s.1)) ∨
        ((∀ c ∈ s.1, c ∉ fileNameIllegalCharStr) ∧ s.1 ≠ [dot] ∧ s.1 ≠ [dot, dot]) := by
  rw [fileNameIsLegal_eq_true_iff, LegalName]
  by_cases hsep : pathSeparator ∈ s.1
  · -- A string with a separator is neither one dot nor two.
    have h₁ : s.1 ≠ [dot] := fun h => absurd (h ▸ hsep) (by decide)
    have h₂ : s.1 ≠ [dot, dot] := fun h => absurd (h ▸ hsep) (by decide)
    tauto
  · rw [lastPart_of_not_mem hsep, Special]
    tauto

/-- An asterisk is accepted, and so is `..`. -/
theorem not_fileNameIsLegal :
    ¬(fileNameIsLegal (CStr.ofChars ['*'] (by decide)).1 = some true ↔
        LegalName (CStr.ofChars ['*'] (by decide)).1) ∧
      ¬(fileNameIsLegal (CStr.ofChars ['.', '.'] (by decide)).1 = some true ↔
        LegalName (CStr.ofChars ['.', '.'] (by decide)).1) := by
  constructor
  · intro h
    exact (h.1 (by decide)).2.1 _ List.mem_cons_self (by decide)
  · intro h
    exact (h.1 (by decide)).2.2 (.inr (.inr rfl))

end Vfs

end DemoOs
