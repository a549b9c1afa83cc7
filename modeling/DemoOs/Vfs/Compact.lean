import DemoOs.Vfs.PathNames

/-!
# Compacting a path

`compactPath` rewrites a path in place, with a cursor that reads it and one that writes it. It
should leave the names of the path, without `.`, and without `..` and the name before it. What it
has written are the names there are so far (`Reading`); at a `..` the cursor goes back to the end of
the name before the last. If there is none, however, the code goes on as with any other name, and as
it has gone past one of the dots already, it writes the other: a `..` in the root leaves a `.`,
which the next one takes away again (`foldl_take`). So the path is compacted just if the number of
these is even (`compacts_iff`).
-/

namespace DemoOs

namespace Vfs

open CStr Components

/-! ## The function -/

/-- `isSeparator`: a slash, or a backslash. -/
def isSeparator (ch : UInt8) : Bool := ch = pathSeparator || ch = 92

def isComponentEnd (ch : UInt8) : Bool := ch = 0 || isSeparator ch

/-- The loop that goes back over the name written last. -/
def erase (m : Bytes) (erasePoint : ℕ) : ℕ → ℕ
  | 0 => 0
  | out + 1 => if out > erasePoint ∧ m out ≠ pathSeparator then erase m erasePoint out else out

/-- The loop of `compactPath`. Every turn takes a byte of the path, and the first argument bounds
    their number. -/
def compactLoop (erasePoint startPoint : ℕ) : ℕ → Bytes → ℕ → ℕ → Bool → Option Bytes
  | 0, _, _, _, _ => none
  | turns + 1, m, src, out, checkDot =>
    let c := m src
    let src := src + 1
    if c = 0 then some (Function.update m out 0)
    else if isSeparator c then compactLoop erasePoint startPoint turns m src out true
    else if checkDot then
      if c = dot ∧
        isComponentEnd (m src) then compactLoop erasePoint startPoint turns m src out true
      else
        let dots : Bool := c = dot ∧ m src = dot ∧ isComponentEnd (m (src + 1))
        let src := if dots then src + 1 else src
        if dots ∧ out > erasePoint then
          compactLoop erasePoint startPoint turns m src (erase m erasePoint out) true
        else
          -- At a `..` in the root the code gets here, too, with the first of the dots.
          let (m, out) :=
            if out > startPoint then (Function.update m out pathSeparator, out + 1) else (m, out)
          compactLoop erasePoint startPoint turns (Function.update m out c) src (out + 1) false
    else compactLoop erasePoint startPoint turns (Function.update m out c) src (out + 1) false

/-- `VFS::compactPath`, of a path that is not null. -/
def compactPath (turns : ℕ) (m : Bytes) (absolutPathName : ℕ) : Option Bytes :=
  if m absolutPathName = 0 ∨ m absolutPathName ≠ pathSeparator then some m
  else
    compactLoop (absolutPathName + 1) (absolutPathName + 1) turns m (absolutPathName + 1)
      (absolutPathName + 1) true

/-! ## What it is for -/

/-- A name is put behind those before it, and `..` takes the last of them away. -/
def push (names : List (List UInt8)) (n : List UInt8) : List (List UInt8) :=
  if n = [dot, dot] then names.dropLast else names ++ [n]

/-- The names in a path other than `.`. -/
def properNames (path : List UInt8) : List (List UInt8) :=
  (components isSeparator path).filter (· ≠ [dot])

/-- The names that remain of a path. -/
def compactNames (path : List UInt8) : List (List UInt8) := (properNames path).foldl push []

/-- The path that should be left. -/
def compacted (path : List UInt8) : List UInt8 :=
  pathSeparator :: [pathSeparator].intercalate (compactNames path)

/-- How many times a `..` comes when there is no name it could take away. -/
def overshoots : List (List UInt8) → List (List UInt8) → ℕ
  | _, [] => 0
  | names, n :: ns => (if n = [dot, dot] ∧ names = [] then 1 else 0) + overshoots (push names n) ns

/-- The path at `a` is compacted, with nothing written behind it; there is no special name left in
    it; and compacting it again changes nothing. -/
def Compacts (m : Bytes) (a : ℕ) (path : List UInt8) : Prop :=
  ∃ m', (∀ turns, path.length < turns → compactPath turns m a = some m') ∧
    (∀ x, x < a ∨ a + path.length < x → m' x = m x) ∧
    StringAt m' a (compacted path) ∧
    (∀ n ∈ compactNames path, ¬Special n) ∧
    ∀ turns, (compacted path).length < turns → compactPath turns m' a = some m'

variable {m m' : Bytes} {a src out turns last x : ℕ} {c : UInt8} {r s n q : List UInt8}
  {names ns : List (List UInt8)}

/-! ## What it does -/

/-- A name is put behind those before it as the code does it: a `..` without a name before it leaves
    a `.`. -/
def take (names : List (List UInt8)) (n : List UInt8) : List (List UInt8) :=
  if n = [] ∨ n = [dot] then names
  else if n = [dot, dot] then if names = [] then [[dot]] else names.dropLast
  else names ++ [n]

/-- The names are what is written, from `a` on, and `r` is still to be read. -/
structure Reading (m : Bytes) (a src out : ℕ) (names : List (List UInt8))
    (r : List UInt8) : Prop where
  unread : StringAt m src r
  zero : 0 ∉ r
  written : m.bytes a ([pathSeparator].intercalate names).length = [pathSeparator].intercalate names
  out_eq : out = a + ([pathSeparator].intercalate names).length
  names : ∀ n ∈ names, n ≠ [] ∧ pathSeparator ∉ n
  le : out ≤ src

/-- The names have been written, and nothing behind `last`. -/
def Writes (m m' : Bytes) (a last : ℕ) (names : List (List UInt8)) : Prop :=
  StringAt m' a ([pathSeparator].intercalate names) ∧ ∀ x, x < a ∨ last < x → m' x = m x

/-- A name ends here just if there is nothing left of it. -/
theorem isComponentEnd_iff (hr : 0 ∉ r) (hsplit : r.splitOnP isSeparator = n :: ns) :
    isComponentEnd (deref r) ↔ n = [] := by
  cases r with
  | nil =>
    obtain ⟨rfl, -⟩ := List.cons.inj hsplit
    exact iff_of_true rfl rfl
  | cons c r =>
    have hc : c ≠ 0 := fun h => hr (h ▸ List.mem_cons_self)
    rw [List.splitOnP_cons_eq_if_modifyHead] at hsplit
    obtain ⟨h, t, hl⟩ := List.exists_cons_of_ne_nil (List.splitOnP_ne_nil isSeparator r)
    by_cases hsep : isSeparator c
    · rw [if_pos hsep] at hsplit
      exact iff_of_true (by simp [isComponentEnd, deref, hsep]) (List.cons.inj hsplit).1.symm
    · rw [if_neg hsep, hl, List.modifyHead_cons] at hsplit
      refine iff_of_false (by simp [isComponentEnd, deref, hsep, hc]) ?_
      exact (List.cons.inj hsplit).1 ▸ List.cons_ne_nil c h

theorem splitOnP_cons_of_not (hc : isSeparator c = false)
    (hsplit : r.splitOnP isSeparator = n :: ns) :
    (c :: r).splitOnP isSeparator = (c :: n) :: ns := by
  rw [List.splitOnP_cons_eq_if_modifyHead, if_neg (by simp [hc]), hsplit, List.modifyHead_cons]

theorem intercalate_eq_nil_iff (h : ∀ n ∈ names, n ≠ [] ∧ pathSeparator ∉ n) :
    [pathSeparator].intercalate names = [] ↔ names = [] := by
  rcases List.eq_nil_or_concat' names with rfl | ⟨names, n, rfl⟩
  · exact iff_of_true rfl rfl
  · refine iff_of_false ?_ (by simp)
    rw [intercalate_concat]
    split_ifs
    · exact (h n (List.mem_append_right _ List.mem_cons_self)).1
    · simp

namespace Reading

/-- Something has been written just if there is a name. -/
theorem lt_iff (h : Reading m a src out names r) : a < out ↔ names ≠ [] := by
  rw [h.out_eq, Nat.lt_add_right_iff_pos, List.length_pos_iff, Ne, intercalate_eq_nil_iff h.names]

/-- At the end of the path, the zero is written. -/
theorem stop (h : Reading m a src out names []) :
    Writes m (Function.update m out 0) a src names := by
  refine ⟨⟨?_, ?_⟩, fun x hx => Function.update_of_ne ?_ ..⟩
  · conv_rhs => rw [← h.written]
    exact Bytes.bytes_eq_iff.2 fun i hi => Function.update_of_ne (by have := h.out_eq; omega) ..
  · rw [← h.out_eq, Function.update_self]
  · have := h.out_eq
    have := h.le
    omega

/-- Reading on. -/
theorem skip (h : Reading m a src out names (c :: r)) : Reading m a (src + 1) out names r :=
  { h with
    unread := h.unread.tail
    zero := fun hr => h.zero (List.mem_cons_of_mem c hr)
    le := Nat.le_succ_of_le h.le }

/-- Something is written where it has been read already. -/
theorem write (h : Reading m a src out names r)
    (hint : [pathSeparator].intercalate ns = [pathSeparator].intercalate names ++ s)
    (hns : ∀ n ∈ ns, n ≠ [] ∧ pathSeparator ∉ n) (hle : out + s.length ≤ src) :
    Reading (m.store out s) a src (out + s.length) ns r where
  unread := h.unread.congr fun x hx => Bytes.store_of_ne (.inr (by omega))
  zero := h.zero
  written := by
    have hbefore : (m.store out s).bytes a ([pathSeparator].intercalate names).length =
        [pathSeparator].intercalate names := by
      conv_rhs => rw [← h.written]
      exact Bytes.bytes_eq_iff.2 fun i hi => Bytes.store_of_ne (.inl (by have := h.out_eq; omega))
    rw [hint, List.length_append, Bytes.bytes_add, hbefore, ← h.out_eq, Bytes.bytes_store]
  out_eq := by rw [hint, List.length_append, h.out_eq, Nat.add_assoc]
  names := hns
  le := hle

/-- A name is begun, behind a separator unless it is the first one. -/
theorem start (h : Reading m a src out names r) (hc : c ≠ pathSeparator)
    (hle : out + (if names = [] then [c] else [pathSeparator, c]).length ≤ src) :
    Reading (m.store out (if names = [] then [c] else [pathSeparator, c])) a src
      (out + (if names = [] then [c] else [pathSeparator, c]).length) (names ++ [[c]]) r := by
  refine h.write ?_ (fun n hn => ?_) hle
  · rw [intercalate_concat]
    split_ifs with hnil
    · rw [hnil]
      rfl
    · rfl
  · rcases List.mem_append.1 hn with hn | hn
    · exact h.names n hn
    · obtain rfl := List.mem_singleton.1 hn
      exact ⟨List.cons_ne_nil c [], by simpa using hc.symm⟩

/-- A name goes on. -/
theorem extend (h : Reading m a src out (names ++ [q]) r) (hc : c ≠ pathSeparator)
    (hle : out + 1 ≤ src) :
    Reading (Function.update m out c) a src (out + 1) (names ++ [q ++ [c]]) r := by
  refine h.write (s := [c]) ?_ (fun n hn => ?_) hle
  · rw [intercalate_concat, intercalate_concat]
    split_ifs
    · rfl
    · simp
  · rcases List.mem_append.1 hn with hn | hn
    · exact h.names n (List.mem_append_left _ hn)
    · obtain rfl := List.mem_singleton.1 hn
      have hq := h.names q (List.mem_append_right _ List.mem_cons_self)
      exact ⟨by simp, by simpa [hq.2] using hc.symm⟩

end Reading

/-- The cursor goes back to the last separator, or to the beginning. -/
theorem erase_eq {p k : ℕ} (hap : a ≤ p) (hp : p = a ∨ m p = pathSeparator)
    (h : ∀ i, p < i → i ≤ p + k → m i ≠ pathSeparator) : erase m a (p + k + 1) = p := by
  induction k with
  | zero =>
    refine if_neg fun hgo => ?_
    rcases hp with hp | hp
    · exact absurd hgo.1 (by omega)
    · exact hgo.2 hp
  | succ k ih =>
    rw [erase, if_pos ⟨by omega, h _ (by omega) (Nat.le_refl _)⟩]
    exact ih fun i hi hik => h i hi (by omega)

theorem Reading.erase (h : Reading m a src out (names ++ [n]) r) :
    Reading m a src (erase m a out) names r := by
  obtain ⟨hn, hsep⟩ := h.names n (List.mem_append_right _ List.mem_cons_self)
  have hwritten := h.written
  have hout := h.out_eq
  have hnames : ∀ n ∈ names, n ≠ [] ∧ pathSeparator ∉ n := fun n hn =>
    h.names n (List.mem_append_left _ hn)
  have hmem {p : ℕ} (hp : m.bytes p n.length = n) {i : ℕ} (hi : i < n.length) :
      m (p + i) ≠ pathSeparator := fun heq => hsep (heq ▸ hp ▸ Bytes.mem_bytes hi)
  rw [intercalate_concat] at hwritten hout
  -- The last name goes with the separator before it; the first one has none.
  suffices heq : Vfs.erase m a out = a + ([pathSeparator].intercalate names).length ∧
      m.bytes a ([pathSeparator].intercalate names).length = [pathSeparator].intercalate names by
    refine ⟨h.unread, h.zero, heq.2, heq.1, hnames, ?_⟩
    have hle := h.le
    rw [heq.1]
    split_ifs at hout with hnil
    · rw [hnil]
      exact (Nat.le_add_right ..).trans (hout ▸ hle)
    · rw [List.length_append] at hout
      omega
  have hpos := List.length_pos_of_ne_nil hn
  split_ifs at hwritten hout with hnil
  · refine ⟨?_, by rw [hnil]; rfl⟩
    obtain ⟨k, hk⟩ := Nat.exists_eq_add_one_of_ne_zero (Nat.ne_of_gt hpos)
    rw [hout, hk, ← Nat.add_assoc, hnil]
    refine erase_eq (Nat.le_refl a) (.inl rfl) fun i hi hik => ?_
    obtain ⟨j, rfl⟩ := Nat.exists_eq_add_of_lt hi
    exact hmem hwritten (i := j + 1) (by omega)
  · rw [List.length_append, Bytes.bytes_add] at hwritten
    obtain ⟨hbefore, hafter⟩ := List.append_inj hwritten (by simp)
    rw [List.length_cons, Bytes.bytes_succ] at hafter
    obtain ⟨hlast, hname⟩ := List.cons.inj hafter
    refine ⟨?_, hbefore⟩
    rw [hout, List.length_append, List.length_cons, ← Nat.add_assoc, ← Nat.add_assoc]
    refine erase_eq (Nat.le_add_right ..) (.inr hlast) fun i hi hik => ?_
    obtain ⟨j, rfl⟩ := Nat.exists_eq_add_of_lt hi
    have hj := hmem hname (i := j) (by omega)
    rwa [Nat.add_right_comm] at hj

/-- The loop leaves these names, however many turns it may take beyond those it needs. -/
def Ends (m : Bytes) (a src out : ℕ) (checkDot : Bool) (r : List UInt8)
    (ns : List (List UInt8)) : Prop :=
  ∃ m', (∀ turns, r.length < turns → compactLoop a a turns m src out checkDot = some m') ∧
    Writes m m' a (src + r.length) ns

variable {m₁ : Bytes} {src₁ out₁ : ℕ} {b b₁ : Bool} {r₁ : List UInt8}

/-- A turn is taken. -/
theorem Ends.turn (h : Ends m₁ a src₁ out₁ b₁ r₁ ns) (hlen : r₁.length < r.length)
    (hend : src₁ + r₁.length = src + r.length)
    (hturn : ∀ turns,
      compactLoop a a (turns + 1) m src out b = compactLoop a a turns m₁ src₁ out₁ b₁)
    (hkeep : ∀ x, x < a ∨ src + r.length < x → m₁ x = m x) : Ends m a src out b r ns := by
  obtain ⟨m', hloop, hstring, hsame⟩ := h
  refine ⟨m', fun turns hturns => ?_, hstring, fun x hx => ?_⟩
  · obtain ⟨turns, rfl⟩ :=
      Nat.exists_eq_add_one_of_ne_zero (Nat.ne_of_gt (Nat.zero_lt_of_lt hturns))
    rw [hturn, hloop turns (by omega)]
  · rw [hsame x (hend ▸ hx), hkeep x hx]

theorem ends_nil (h : Reading m a src out names []) : Ends m a src out b [] names := by
  refine ⟨Function.update m out 0, fun turns hturns => ?_, h.stop⟩
  obtain ⟨turns, rfl⟩ := Nat.exists_eq_add_one_of_ne_zero (Nat.ne_of_gt hturns)
  rw [compactLoop]
  exact if_pos h.unread.2

/-- The loop does what `take` does to the names that are still to be read, from the states between
    two names and from those in a name, if there are fewer than `k` bytes left. -/
def EndsBelow (a k : ℕ) : Prop :=
  (∀ {m src out names r}, r.length < k → Reading m a src out names r → (names ≠ [] → out < src) →
    Ends m a src out true r ((r.splitOnP isSeparator).foldl take names)) ∧
  ∀ {m src out names q r n ns}, r.length < k → Reading m a src out (names ++ [q]) r →
    r.splitOnP isSeparator = n :: ns → Ends m a src out false r (ns.foldl take (names ++ [q ++ n]))

/-- Between two names, a separator is skipped. -/
theorem ends_separator (hk : EndsBelow a (r.length + 1)) (h : Reading m a src out names (c :: r))
    (hsep : isSeparator c) :
    Ends m a src out b (c :: r) ((r.splitOnP isSeparator).foldl take names) := by
  have hc0 : c ≠ 0 := fun h₀ => h.zero (h₀ ▸ List.mem_cons_self)
  refine (hk.1 (Nat.lt_succ_self _) h.skip fun _ => Nat.lt_succ_of_le h.le).turn
    (Nat.lt_succ_self _) (by rw [List.length_cons]; omega) (fun turns => ?_) fun _ _ => rfl
  simp [compactLoop, h.unread.head, deref, hc0, hsep]

/-- A dot that is a name is skipped. -/
theorem ends_dot (hk : EndsBelow a (r.length + 1)) (h : Reading m a src out names (dot :: r))
    (hend : isComponentEnd (deref r)) :
    Ends m a src out true (dot :: r) ((r.splitOnP isSeparator).foldl take names) := by
  have hdot : dot ≠ 0 ∧ isSeparator dot = false := by decide
  refine (hk.1 (Nat.lt_succ_self _) h.skip fun _ => Nat.lt_succ_of_le h.le).turn
    (Nat.lt_succ_self _) (by rw [List.length_cons]; omega) (fun turns => ?_) fun _ _ => rfl
  simp [compactLoop, h.unread.head, h.unread.tail.head, deref_cons, hdot, hend]

/-- Two dots that are a name take the last name away. -/
theorem ends_dots (hk : EndsBelow a (r.length + 2))
    (h : Reading m a src out (names ++ [n]) (dot :: dot :: r)) (hend : isComponentEnd (deref r)) :
    Ends m a src out true (dot :: dot :: r) ((r.splitOnP isSeparator).foldl take names) := by
  have hdot : dot ≠ 0 ∧ isSeparator dot = false ∧ isComponentEnd dot = false := by decide
  have hread := h.skip.skip.erase
  have hout : erase m a out < src + 1 + 1 := by
    have := h.erase.le
    omega
  have hlen : (dot :: dot :: r).length = r.length + 2 := rfl
  refine (hk.1 (by omega) hread fun _ => hout).turn (by omega) (by omega) (fun turns => ?_)
    fun _ _ => rfl
  simp [compactLoop, h.unread.head, h.unread.tail.head, h.unread.tail.tail.head,
    deref_cons, hdot, hend, h.lt_iff.2 (by simp)]

/-- If there is none, the second dot is dropped, and the first one is taken for a name. -/
theorem ends_dots_nil (hk : EndsBelow a (r.length + 2))
    (h : Reading m a src out [] (dot :: dot :: r))
    (hsplit : r.splitOnP isSeparator = n :: ns) (hend : isComponentEnd (deref r)) :
    Ends m a src out true (dot :: dot :: r) (ns.foldl take [[dot] ++ n]) := by
  have hdot : dot ≠ 0 ∧ isSeparator dot = false ∧ isComponentEnd dot = false := by decide
  have hread := h.skip.skip.start (c := dot) (by decide) (by simp; have := h.le; omega)
  have hlen : (dot :: dot :: r).length = r.length + 2 := rfl
  refine (hk.2 (by omega) hread hsplit).turn (by omega) (by omega) (fun turns => ?_) fun x hx => ?_
  · simp [compactLoop, h.unread.head, h.unread.tail.head, h.unread.tail.tail.head,
      deref_cons, hdot, hend, h.lt_iff, Bytes.store]
  · rw [if_pos rfl]
    have := h.out_eq
    have := h.le
    exact Bytes.store_of_ne (by simp at hx ⊢; omega)

/-- Any other name is begun. -/
theorem ends_name (hk : EndsBelow a (r.length + 1)) (h : Reading m a src out names (c :: r))
    (hlt : names ≠ [] → out < src) (hsplit : r.splitOnP isSeparator = n :: ns)
    (hsep : isSeparator c = false) (hdot : ¬(c = dot ∧ isComponentEnd (deref r)))
    (hdots : ¬(c = dot ∧ deref r = dot ∧ isComponentEnd (deref r.tail))) :
    Ends m a src out true (c :: r) (ns.foldl take (names ++ [c :: n])) := by
  have hc0 : c ≠ 0 := fun h₀ => h.zero (h₀ ▸ List.mem_cons_self)
  have hc : c ≠ pathSeparator := fun h₀ => absurd (h₀ ▸ hsep) (by decide)
  have hle := h.le
  have hnext : m (src + 1) = deref r := h.unread.tail.head
  have hdots : ¬(c = dot ∧ deref r = dot ∧ isComponentEnd (m (src + 1 + 1))) := by
    cases r with
    | nil => exact fun h' => absurd h'.2.1 (by decide)
    | cons d r => rwa [h.unread.tail.tail.head]
  have hread :=
    h.skip.start hc (by split_ifs with hnil <;> [skip; have := hlt hnil] <;> simp <;> omega)
  refine (hk.2 (Nat.lt_succ_self _) hread hsplit).turn (Nat.lt_succ_self _)
    (by rw [List.length_cons]; omega) (fun turns => ?_) fun x hx => ?_
  · rw [compactLoop]
    simp only [h.unread.head, deref_cons, hc0, hsep, hnext, hdot, hdots, h.lt_iff,
      if_false, if_true, Bool.false_eq_true, decide_false, false_and]
    by_cases hnil : names = [] <;> simp [hnil, Bytes.store]
  · have := h.out_eq
    refine Bytes.store_of_ne ?_
    rw [List.length_cons] at hx
    split_ifs with hnil <;> [skip; have := hlt hnil] <;> simp <;> omega

/-- In a name, a byte is added to it. -/
theorem ends_in_name (hk : EndsBelow a (r.length + 1))
    (h : Reading m a src out (names ++ [q]) (c :: r))
    (hsplit : r.splitOnP isSeparator = n :: ns) (hsep : isSeparator c = false) :
    Ends m a src out false (c :: r) (ns.foldl take (names ++ [q ++ c :: n])) := by
  have hc0 : c ≠ 0 := fun h₀ => h.zero (h₀ ▸ List.mem_cons_self)
  have hc : c ≠ pathSeparator := fun h₀ => absurd (h₀ ▸ hsep) (by decide)
  have hread := h.skip.extend hc (Nat.succ_le_succ h.le)
  have hends := hk.2 (Nat.lt_succ_self _) hread hsplit
  rw [List.append_assoc, List.singleton_append] at hends
  refine hends.turn (Nat.lt_succ_self _) (by rw [List.length_cons]; omega)
    (fun turns => ?_) fun x hx => ?_
  · simp [compactLoop, h.unread.head, hc0, hsep]
  · have := h.out_eq
    have := h.le
    exact Function.update_of_ne (by rw [List.length_cons] at hx; omega) ..

/-- The names of a path that begins with this byte. -/
theorem foldl_take_cons (hc : isSeparator c = false) (hsplit : r.splitOnP isSeparator = n :: ns) :
    ((c :: r).splitOnP isSeparator).foldl take names = ns.foldl take (take names (c :: n)) := by
  rw [splitOnP_cons_of_not hc hsplit, List.foldl_cons]

theorem foldl_take_of_end (hend : r.splitOnP isSeparator = [] :: ns) :
    (r.splitOnP isSeparator).foldl take names = ns.foldl take names := by
  rw [hend, List.foldl_cons, take, if_pos (.inl rfl)]

/-- A name that is one dot begins with a dot, and ends after it. -/
theorem dot_of_splitOnP (hr : 0 ∉ r) (hsplit : r.splitOnP isSeparator = [dot] :: ns) :
    deref r = dot ∧ isComponentEnd (deref r.tail) := by
  cases r with
  | nil => exact nomatch hsplit
  | cons d r =>
    obtain ⟨n, ns', hsplit'⟩ := List.exists_cons_of_ne_nil (List.splitOnP_ne_nil isSeparator r)
    by_cases hsep : isSeparator d
    · rw [List.splitOnP_cons_eq_if_modifyHead, if_pos hsep] at hsplit
      exact absurd (List.cons.inj hsplit).1.symm (List.cons_ne_nil dot [])
    · rw [splitOnP_cons_of_not (eq_false_of_ne_true hsep) hsplit'] at hsplit
      obtain ⟨rfl, rfl⟩ := List.cons.inj (List.cons.inj hsplit).1
      exact ⟨rfl, (isComponentEnd_iff (not_mem_tail hr) hsplit').2 rfl⟩

/-- Between two names the loop does what `take` does. -/
theorem ends_between (hk : EndsBelow a (c :: r).length) (h : Reading m a src out names (c :: r))
    (hlt : names ≠ [] → out < src) :
    Ends m a src out true (c :: r) (((c :: r).splitOnP isSeparator).foldl take names) := by
  have hr : 0 ∉ r := fun h' => h.zero (List.mem_cons_of_mem c h')
  obtain ⟨n, ns, hsplit⟩ := List.exists_cons_of_ne_nil (List.splitOnP_ne_nil isSeparator r)
  -- The tests of the loop in their order: a separator, a dot, two dots, a name.
  by_cases hsep : isSeparator c
  · rw [List.splitOnP_cons_eq_if_modifyHead, if_pos hsep, List.foldl_cons, take, if_pos (.inl rfl)]
    exact ends_separator hk h hsep
  have hsep := eq_false_of_ne_true hsep
  rw [foldl_take_cons hsep hsplit]
  by_cases hdot : c = dot ∧ isComponentEnd (deref r)
  · obtain ⟨rfl, hend⟩ := hdot
    obtain rfl := (isComponentEnd_iff hr hsplit).1 hend
    rw [take, if_pos (.inr rfl), ← foldl_take_of_end hsplit]
    exact ends_dot hk h hend
  by_cases hdots : c = dot ∧ deref r = dot ∧ isComponentEnd (deref r.tail)
  · obtain ⟨rfl, hsecond, hend⟩ := hdots
    obtain ⟨d, r, rfl⟩ := List.exists_cons_of_ne_nil
      (fun hnil => absurd (hnil ▸ hsecond) (by decide) : r ≠ [])
    obtain rfl : d = dot := hsecond
    obtain ⟨n', ns', hsplit'⟩ := List.exists_cons_of_ne_nil (List.splitOnP_ne_nil isSeparator r)
    obtain rfl := (isComponentEnd_iff (not_mem_tail hr) hsplit').1 hend
    obtain ⟨rfl, rfl⟩ :=
      List.cons.inj ((splitOnP_cons_of_not (by decide) hsplit').symm.trans hsplit)
    rw [take, if_neg (by decide), if_pos rfl]
    split_ifs with hnil
    · subst hnil
      exact ends_dots_nil hk h hsplit' hend
    · obtain ⟨names, n, rfl⟩ := (List.eq_nil_or_concat' names).resolve_left hnil
      rw [List.dropLast_concat, ← foldl_take_of_end hsplit']
      exact ends_dots hk h hend
  · -- Any other component is a name, and is added.
    have hname : take names (c :: n) = names ++ [c :: n] := by
      rw [take, if_neg, if_neg]
      · intro heq
        obtain ⟨rfl, rfl⟩ := List.cons.inj heq
        exact hdots ⟨rfl, dot_of_splitOnP hr hsplit⟩
      · rintro (heq | heq)
        · exact List.cons_ne_nil c n heq
        · obtain ⟨rfl, rfl⟩ := List.cons.inj heq
          exact hdot ⟨rfl, (isComponentEnd_iff hr hsplit).2 rfl⟩
    rw [hname]
    exact ends_name hk h hlt hsplit hsep hdot hdots

theorem EndsBelow.mono {k k' : ℕ} (h : EndsBelow a k) (hle : k' ≤ k) : EndsBelow a k' :=
  ⟨fun hlt => h.1 (hlt.trans_le hle), fun hlt => h.2 (hlt.trans_le hle)⟩

theorem endsBelow (a k : ℕ) : EndsBelow a k := by
  induction k with
  | zero => exact ⟨fun h => absurd h (Nat.not_lt_zero _), fun h => absurd h (Nat.not_lt_zero _)⟩
  | succ k ih =>
    constructor
    · rintro m src out names (_ | ⟨c, r⟩) hlen hread hlt
      · exact ends_nil hread
      · exact ends_between (ih.mono (Nat.lt_succ_iff.1 hlen)) hread hlt
    · rintro m src out names q (_ | ⟨c, r⟩) n ns hlen hread hsplit
      · obtain ⟨rfl, rfl⟩ : [] = n ∧ [] = ns := List.cons.inj hsplit
        rw [List.append_nil]
        exact ends_nil hread
      · have ih := ih.mono (Nat.lt_succ_iff.1 hlen)
        by_cases hsep : isSeparator c
        · rw [List.splitOnP_cons_eq_if_modifyHead, if_pos hsep] at hsplit
          obtain ⟨rfl, rfl⟩ := List.cons.inj hsplit
          rw [List.append_nil]
          exact ends_separator ih hread hsep
        · obtain ⟨n', ns', hsplit'⟩ :=
            List.exists_cons_of_ne_nil (List.splitOnP_ne_nil isSeparator r)
          have hsep := eq_false_of_ne_true hsep
          obtain ⟨rfl, rfl⟩ := List.cons.inj ((splitOnP_cons_of_not hsep hsplit').symm.trans hsplit)
          exact ends_in_name ih hread hsplit' hsep

/-- The names that the code leaves. -/
def leftNames (path : List UInt8) : List (List UInt8) := (path.splitOnP isSeparator).foldl take []

/-- The path is rewritten with the names that the code leaves. -/
theorem compactPath_eq (hpath : StringAt m a (pathSeparator :: r)) (hr : 0 ∉ r) :
    ∃ m', (∀ turns, r.length < turns → compactPath turns m a = some m') ∧
      (∀ x, x < a ∨ a + (r.length + 1) < x → m' x = m x) ∧
      StringAt m' a (pathSeparator :: [pathSeparator].intercalate (leftNames r)) := by
  have hread : Reading m (a + 1) (a + 1) (a + 1) [] r :=
    ⟨hpath.tail, hr, rfl, rfl, fun _ h => absurd h List.not_mem_nil, Nat.le_refl _⟩
  obtain ⟨m', hloop, hstring, hkeep⟩ :=
    (endsBelow (a + 1) (r.length + 1)).1 (Nat.lt_succ_self _) hread fun h => absurd rfl h
  have hhead : m a = pathSeparator := hpath.head
  refine ⟨m', fun turns hturns => ?_, fun x hx => hkeep x (by omega), ?_⟩
  · rw [compactPath, hhead, if_neg (by decide)]
    exact hloop turns hturns
  · refine StringAt.append (s := [pathSeparator]) ?_ hstring
    rw [List.length_singleton, Bytes.bytes_succ, hkeep a (.inl (Nat.lt_succ_self a)), hhead]
    rfl

/-! ## Both compared -/

/-- A dot in front of the names, if the number is odd. -/
def marked (k : ℕ) (names : List (List UInt8)) : List (List UInt8) :=
  if Even k then names else [dot] :: names

theorem take_marked_dots (k : ℕ) :
    take (marked k names) [dot, dot] =
      marked (k + if names = [] then 1 else 0) (push names [dot, dot]) := by
  rw [take, if_neg (by decide), if_pos rfl, push, if_pos rfl]
  by_cases hnil : names = [] <;> by_cases hk : Even k <;>
    simp [marked, hnil, hk, Nat.even_add_one, List.dropLast_cons_of_ne_nil]

/-- Every second `..` that comes in the root leaves a dot in front of the names. -/
theorem foldl_take (names ns : List (List UInt8)) (k : ℕ) :
    ns.foldl take (marked k names) =
      marked (k + overshoots names ((ns.filter (!·.isEmpty)).filter (· ≠ [dot])))
        (((ns.filter (!·.isEmpty)).filter (· ≠ [dot])).foldl push names) := by
  induction ns generalizing k names with
  | nil => rfl
  | cons n ns ih =>
    rw [List.foldl_cons]
    by_cases hskip : n = [] ∨ n = [dot]
    · have hdrop : ((n :: ns).filter (!·.isEmpty)).filter (· ≠ [dot]) =
          (ns.filter (!·.isEmpty)).filter (· ≠ [dot]) := by
        rcases hskip with rfl | rfl <;> simp
      rw [hdrop, take, if_pos hskip, ih]
    · rw [not_or] at hskip
      have hkeep : ((n :: ns).filter (!·.isEmpty)).filter (· ≠ [dot]) =
          n :: (ns.filter (!·.isEmpty)).filter (· ≠ [dot]) := by
        simp [hskip]
      rw [hkeep, List.foldl_cons, overshoots, ← Nat.add_assoc]
      by_cases hdots : n = [dot, dot]
      · subst hdots
        rw [take_marked_dots, ih]
        simp
      · have htake : take (marked k names) n = marked k (push names n) := by
          rw [take, if_neg (not_or.2 hskip), if_neg hdots, push, if_neg hdots]
          by_cases hk : Even k <;> simp [marked, hk]
        rw [htake, ih, if_neg fun h => hdots h.1, Nat.add_zero]

theorem properNames_cons : properNames (pathSeparator :: r) = properNames r := by
  rw [properNames, components_cons_of_pos (by decide)]
  rfl

theorem leftNames_eq : leftNames r = marked (overshoots [] (properNames r)) (compactNames r) := by
  have h := foldl_take [] (r.splitOnP isSeparator) 0
  rwa [Nat.zero_add] at h

/-- The names that remain are some of those of the path. -/
theorem mem_foldl_push (h : n ∈ ns.foldl push names) : n ∈ names ∨ n ∈ ns ∧ n ≠ [dot, dot] := by
  induction ns generalizing names with
  | nil => exact .inl h
  | cons n' ns ih =>
    rcases ih h with h | h
    · rw [push] at h
      split_ifs at h with hdots
      · exact .inl (List.dropLast_subset _ h)
      · rcases List.mem_append.1 h with h | h
        · exact .inl h
        · obtain rfl := List.mem_singleton.1 h
          exact .inr ⟨List.mem_cons_self, hdots⟩
    · exact .inr ⟨List.mem_cons_of_mem n' h.1, h.2⟩

theorem of_mem_compactNames (h : n ∈ compactNames r) :
    ¬Special n ∧ (∀ c ∈ n, isSeparator c = false) ∧ n ⊆ r := by
  obtain ⟨hmem, hdots⟩ := (mem_foldl_push h).resolve_left List.not_mem_nil
  obtain ⟨hmem, hdot⟩ := List.mem_filter.1 hmem
  refine ⟨?_, not_sep_of_mem_components hmem, subset_of_mem_splitOnP (List.mem_filter.1 hmem).1⟩
  rintro (rfl | rfl | rfl)
  · exact ne_nil_of_mem_components hmem rfl
  · exact of_decide_eq_true hdot rfl
  · exact hdots rfl

theorem zero_not_mem_intercalate (h : ∀ n ∈ names, 0 ∉ n) :
    0 ∉ [pathSeparator].intercalate names := by
  induction names using List.reverseRecOn with
  | nil => exact List.not_mem_nil
  | append_singleton names n ih =>
    have hn := h n (List.mem_append_right _ List.mem_cons_self)
    rw [intercalate_concat]
    split_ifs
    · exact hn
    · simp only [List.mem_append, List.mem_cons, not_or]
      exact ⟨ih fun n hn => h n (List.mem_append_left _ hn), by decide, hn⟩

/-- Names that are not special are left as they are. -/
theorem leftNames_intercalate (h : ∀ n ∈ names, ¬Special n ∧ ∀ c ∈ n, isSeparator c = false) :
    leftNames ([pathSeparator].intercalate names) = names := by
  have hfold (init : List (List UInt8)) : names.foldl take init = init ++ names := by
    induction names generalizing init with
    | nil => simp
    | cons n names ih =>
      have hn := (h n List.mem_cons_self).1
      rw [Special, ← or_assoc, not_or] at hn
      rw [List.foldl_cons, take, if_neg hn.1, if_neg hn.2,
        ih (fun n' hn' => h n' (List.mem_cons_of_mem n hn')), List.append_assoc]
      rfl
  by_cases hnil : names = []
  · rw [hnil]
    rfl
  · rw [leftNames, splitOnP_intercalate (by decide) hnil fun n hn => (h n hn).2, hfold]
    rfl

/-- A dot in front makes the path longer. -/
theorem intercalate_cons_ne : [pathSeparator].intercalate ([dot] :: names) ≠
    [pathSeparator].intercalate names := by
  intro heq
  by_cases hnil : names = []
  · rw [hnil] at heq
    exact nomatch heq
  · rw [List.intercalate_cons_of_ne_nil hnil] at heq
    have hlen := congrArg List.length heq
    simp only [List.length_append, List.length_singleton] at hlen
    omega

theorem compactNames_cons : compactNames (pathSeparator :: r) = compactNames r := by
  rw [compactNames, properNames_cons]
  rfl

theorem Compacts.even (hpath : StringAt m a (pathSeparator :: r)) (hr : 0 ∉ r)
    (h : Compacts m a (pathSeparator :: r)) :
    Even (overshoots [] (properNames (pathSeparator :: r))) := by
  obtain ⟨m₁, hrun, -, hstring⟩ := compactPath_eq hpath hr
  obtain ⟨m', hrun', -, hstring', -⟩ := h
  obtain rfl : m₁ = m' := by
    have hlen : r.length < (pathSeparator :: r).length + 1 :=
      Nat.lt_add_right 1 (Nat.lt_succ_self _)
    exact Option.some.inj ((hrun _ hlen).symm.trans (hrun' _ (Nat.lt_succ_self _)))
  rw [properNames_cons]
  by_contra hodd
  -- Both paths are there, but there is a dot in front of one of them.
  rw [leftNames_eq, marked, if_neg hodd] at hstring
  rw [compacted, compactNames_cons] at hstring'
  have hnames : ∀ n ∈ compactNames r, 0 ∉ n := fun n hn h₀ => hr ((of_mem_compactNames hn).2.2 h₀)
  have hzero {ns : List (List UInt8)} (hns : ∀ n ∈ ns, 0 ∉ n) :
      0 ∉ pathSeparator :: [pathSeparator].intercalate ns :=
    List.not_mem_cons_of_ne_of_not_mem (by decide) (zero_not_mem_intercalate hns)
  have heq :=
    hstring.eq hstring' (hzero (List.forall_mem_cons.2 ⟨by decide, hnames⟩)) (hzero hnames)
  exact intercalate_cons_ne (List.cons.inj heq).2

theorem compacts_of_even (hpath : StringAt m a (pathSeparator :: r)) (hr : 0 ∉ r)
    (heven : Even (overshoots [] (properNames (pathSeparator :: r)))) :
    Compacts m a (pathSeparator :: r) := by
  obtain ⟨m', hrun, hkeep, hstring⟩ := compactPath_eq hpath hr
  rw [properNames_cons] at heven
  rw [leftNames_eq, marked, if_pos heven] at hstring
  have hnames : ∀ n ∈ compactNames r, 0 ∉ n := fun n hn h₀ => hr ((of_mem_compactNames hn).2.2 h₀)
  obtain ⟨m₂, hrun₂, hkeep₂, hstring₂⟩ := compactPath_eq hstring (zero_not_mem_intercalate hnames)
  rw [leftNames_intercalate fun n hn => ⟨(of_mem_compactNames hn).1, (of_mem_compactNames hn).2.1⟩]
    at hstring₂
  obtain rfl : m₂ = m' := hstring.ext hstring₂ hkeep₂
  rw [Compacts, compacted, compactNames_cons]
  exact ⟨m₂, fun turns hturns => hrun turns ((Nat.lt_succ_self _).trans hturns), hkeep, hstring,
    fun n hn => (of_mem_compactNames hn).1,
    fun turns hturns => hrun₂ turns ((Nat.lt_succ_self _).trans hturns)⟩

theorem zero_not_mem_homePath :
    0 ∉ ['/', 'a', '/', '.', '.', '/', 'b', '/', '.'].map Char.toUInt8 := by
  decide

theorem zero_not_mem_parentPath : 0 ∉ ['/', '.', '.'].map Char.toUInt8 := by decide

/-- The path `/a/../b/.`. -/
def homePath : CStr := .ofChars ['/', 'a', '/', '.', '.', '/', 'b', '/', '.'] zero_not_mem_homePath

/-- The path `/..`. -/
def parentPath : CStr := .ofChars ['/', '.', '.'] zero_not_mem_parentPath

/-- A path is compacted just if `..` comes in the root an even number of times. -/
theorem compacts_iff (m : Bytes) (a : ℕ) (path : CStr) (hpath : StringAt m a path.1)
    (hroot : path.1.head? = some pathSeparator) :
    Compacts m a path.1 ↔ Even (overshoots [] (properNames path.1)) := by
  obtain ⟨path, hzero⟩ := path
  obtain ⟨r, rfl⟩ := List.head?_eq_some_iff.1 hroot
  have hr : 0 ∉ r := not_mem_tail hzero
  exact ⟨fun h => h.even hpath hr, compacts_of_even hpath hr⟩

theorem compacts_homePath : Compacts (Bytes.store (fun _ => 0) 8 homePath.1) 8 homePath.1 :=
  (compacts_iff _ 8 homePath (by decide) (by decide)).2 (by decide)

/-- The path `/..` is rewritten to `/.`. -/
theorem not_compacts : ¬Compacts (Bytes.store (fun _ => 0) 8 parentPath.1) 8 parentPath.1 := by
  intro h
  have hpath : StringAt (Bytes.store (fun _ => 0) 8 parentPath.1) 8 parentPath.1 := by decide
  exact absurd (h.even hpath (by decide)) (by decide)

end Vfs

end DemoOs
