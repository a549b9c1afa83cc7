import DemoOs.Vfs.PathNames

/-!
# Absolute paths

A relative path is put after the path of the current directory, by `sstrncpy`, which counts the zero
at the end, and `strncat`, which does not. The result is the path meant, or a null pointer, except
that

* no separator is put between the two paths, so that two names become one unless there is one
  already;
* the relative path is cut if there is no room for it (`joins_iff`).
-/

namespace DemoOs

namespace Vfs

open CStr Components

/-! ## The functions -/

/-- The loop of `sstrncpy`, with what is left of the source. -/
def sstrncpyLoop (dst n : ℕ) : Bytes → ℕ → List UInt8 → ℕ × Bytes
  | m, index, [] => (index, m)
  | m, index, c :: src =>
    if index < n then sstrncpyLoop dst n (Function.update m (dst + index) c) (index + 1) src
    else (index, m)

/-- `sstrncpy`, for `n` other than zero. -/
def sstrncpy (m : Bytes) (dst : ℕ) (src : List UInt8) (n : ℕ) : ℕ × Bytes :=
  let (index, m) := sstrncpyLoop dst n m 0 src
  let index := if index ≥ n then n - 1 else index
  (index + 1, Function.update m (dst + index) 0)

/-- The first loop of `strncat`: the end of the string at `d`. The first argument bounds the
    turns. -/
def seekEnd (m : Bytes) : ℕ → ℕ → Option ℕ
  | 0, _ => none
  | turns + 1, d => if m d = 0 then some d else seekEnd m turns (d + 1)

/-- The second loop of `strncat`, and the zero it is followed by if `n` has come down to zero. -/
def strncatLoop : Bytes → ℕ → List UInt8 → ℕ → Bytes
  | m, d, [], _ => Function.update m d 0
  | m, d, c :: src, n =>
    let m := Function.update m d c
    if n - 1 > 0 then strncatLoop m (d + 1) src (n - 1) else Function.update m (d + 1) 0

def strncat (turns : ℕ) (m : Bytes) (dst : ℕ) (src : List UInt8) (n : ℕ) : Option Bytes :=
  if n ≠ 0 then do
    let d ← seekEnd m turns dst
    some (strncatLoop m d src n)
  else some m

/-- `VFS::absolutePath`, with what `cwd` returns for the current thread. A null pointer is returned
    (none), or `dst`. -/
def absolutePath (m : Bytes) (dst dstSize : ℕ) (cwd relativePath : List UInt8) :
    Option (Option ℕ × Bytes) :=
  let (n, m) := sstrncpy m dst cwd dstSize
  if n ≥ dstSize then some (none, m)
  else do
    let m ← strncat n m dst relativePath (dstSize - n)
    some (some dst, m)

/-- A null pointer is returned, or there is a path in the buffer that consists of the two paths, in
    full, with nothing but separators between them, and the names of it are those of the two. -/
def Joins (m : Bytes) (dst dstSize : ℕ) (cwd relativePath : CStr) : Prop :=
  ∃ r m', absolutePath m dst dstSize cwd.1 relativePath.1 = some (r, m') ∧
    (∀ x, x < dst ∨ dst + dstSize ≤ x → m' x = m x) ∧
    (r = none ∨ r = some dst ∧ ∃ path : CStr, StringAt m' dst path.1 ∧ path.1.length < dstSize ∧
      (∃ seps, (∀ c ∈ seps, c = pathSeparator) ∧ path.1 = cwd.1 ++ seps ++ relativePath.1) ∧
      pathNames path.1 = pathNames cwd.1 ++ pathNames relativePath.1)

variable {m : Bytes} {a d k dst dstSize index turns x : ℕ} {s t src : List UInt8}
  {cwd relativePath : CStr}

/-! ## Copying -/

theorem sstrncpyLoop_eq (hindex : index ≤ k) :
    sstrncpyLoop dst k m index src =
      (index + (src.take (k - index)).length, m.store (dst + index) (src.take (k - index))) := by
  induction src generalizing m index with
  | nil => simp [sstrncpyLoop, Bytes.store]
  | cons c src ih =>
    rw [sstrncpyLoop]
    split_ifs with hlt
    · obtain ⟨j, hj⟩ := Nat.exists_eq_add_one_of_ne_zero (Nat.sub_ne_zero_of_lt hlt)
      have hj' : k - (index + 1) = j := by omega
      rw [ih hlt, hj, hj', List.take_succ_cons, List.length_cons, Bytes.store]
      simp only [Prod.mk.injEq]
      exact ⟨by omega, rfl⟩
    · have hzero : k - index = 0 := by omega
      rw [hzero]
      simp [Bytes.store]

/-- A source for which there is room is copied. -/
theorem sstrncpy_of_lt (h : src.length < k) :
    sstrncpy m dst src k =
      (src.length + 1, Function.update (m.store dst src) (dst + src.length) 0) := by
  have htake : src.take (k - 0) = src := List.take_of_length_le (by omega)
  rw [sstrncpy, sstrncpyLoop_eq (Nat.zero_le k), htake, Nat.zero_add, Nat.add_zero]
  simp only
  rw [if_neg (by omega)]

/-- Otherwise it is cut, and as many bytes are written as there is room for. -/
theorem sstrncpy_of_le (dst : ℕ) (hk : 0 < k) (h : k ≤ src.length) :
    ∃ m', sstrncpy m dst src k = (k, m') ∧ ∀ x, x < dst ∨ dst + k ≤ x → m' x = m x := by
  have hlen : (src.take (k - 0)).length = k := by simp; omega
  refine ⟨Function.update (m.store (dst + 0) (src.take (k - 0))) (dst + (k - 1)) 0, ?_,
    fun x hx => ?_⟩
  · rw [sstrncpy, sstrncpyLoop_eq (Nat.zero_le k), hlen]
    simp only
    rw [if_pos (by omega), Nat.sub_add_cancel hk]
  · rw [Function.update_of_ne (by omega), Bytes.store_of_ne (by omega)]

theorem seekEnd_eq (hs : StringAt m a s) (hs0 : 0 ∉ s) (hturns : s.length < turns) :
    seekEnd m turns a = some (a + s.length) := by
  induction s generalizing a turns with
  | nil =>
    obtain ⟨turns, rfl⟩ := Nat.exists_eq_add_one_of_ne_zero (Nat.ne_of_gt hturns)
    exact if_pos hs.2
  | cons b s ih =>
    obtain ⟨turns, rfl⟩ :=
      Nat.exists_eq_add_one_of_ne_zero (Nat.ne_of_gt (Nat.zero_lt_of_lt hturns))
    have hb : m a ≠ 0 := fun h => hs0 (hs.head.symm.trans h ▸ List.mem_cons_self)
    rw [seekEnd, if_neg hb, ih hs.tail (not_mem_tail hs0) (Nat.lt_of_succ_lt_succ hturns),
      List.length_cons, Nat.add_comm s.length, Nat.add_assoc]

/-- As much of the source as there is room for is put at the end. -/
theorem strncatLoop_eq (hk : 0 < k) :
    strncatLoop m d src k =
      Function.update (m.store d (src.take k)) (d + (src.take k).length) 0 := by
  induction src generalizing m d k with
  | nil => simp [strncatLoop, Bytes.store]
  | cons c src ih =>
    obtain ⟨k, rfl⟩ := Nat.exists_eq_add_one_of_ne_zero (Nat.ne_of_gt hk)
    rw [strncatLoop, List.take_succ_cons, List.length_cons, Bytes.store, Nat.add_sub_cancel]
    split_ifs with hpos
    · rw [ih hpos]
      congr 1
      omega
    · obtain rfl : k = 0 := by omega
      simp [Bytes.store]

theorem absolutePath_of_le (dst : ℕ) (hsize : 0 < dstSize) (h : dstSize ≤ s.length + 1) :
    ∃ m', absolutePath m dst dstSize s t = some (none, m') ∧
      ∀ x, x < dst ∨ dst + dstSize ≤ x → m' x = m x := by
  by_cases hlt : s.length < dstSize
  · refine ⟨Function.update (m.store dst s) (dst + s.length) 0, ?_, fun x hx => ?_⟩
    · rw [absolutePath, sstrncpy_of_lt hlt]
      exact if_pos h
    · rw [Function.update_of_ne (by omega), Bytes.store_of_ne (by omega)]
  · obtain ⟨m', hcopy, hkeep⟩ := sstrncpy_of_le (m := m) dst hsize (Nat.not_lt.1 hlt)
    refine ⟨m', ?_, hkeep⟩
    rw [absolutePath, hcopy]
    exact if_pos (Nat.le_refl _)

/-- The second path follows the first, as far as there is room for it. -/
theorem absolutePath_of_lt (dst : ℕ) (hs0 : 0 ∉ s) (h : s.length + 1 < dstSize) :
    ∃ m', absolutePath m dst dstSize s t = some (some dst, m') ∧
      StringAt m' dst (s ++ t.take (dstSize - (s.length + 1))) ∧
      ∀ x, x < dst ∨ dst + dstSize ≤ x → m' x = m x := by
  set k := dstSize - (s.length + 1) with hk
  have hat : StringAt (Function.update (m.store dst s) (dst + s.length) 0) dst s := .store
  have hlen : (t.take k).length ≤ k := List.length_take_le ..
  refine ⟨strncatLoop (Function.update (m.store dst s) (dst + s.length) 0) (dst + s.length) t k,
    ?_, ?_, fun x hx => ?_⟩
  · rw [absolutePath, sstrncpy_of_lt (by omega)]
    simp only
    rw [if_neg (by omega), strncat, if_pos (by omega), seekEnd_eq hat hs0 (Nat.lt_succ_self _)]
    rfl
  · rw [strncatLoop_eq (by omega)]
    refine .append ?_ .store
    conv_rhs => rw [← hat.1]
    refine Bytes.bytes_eq_iff.2 fun i hi => ?_
    rw [Function.update_of_ne (by omega), Bytes.store_of_ne (.inl (by omega))]
  · rw [strncatLoop_eq (by omega), Function.update_of_ne (by omega), Bytes.store_of_ne (by omega),
      Function.update_of_ne (by omega), Bytes.store_of_ne (by omega)]

/-! ## Joining -/

/-- The names of two paths are those of the one after the other just if there is a separator between
    them, or one of them is empty. -/
theorem pathNames_append_iff (ht : t.head? ≠ some pathSeparator) :
    pathNames (s ++ t) = pathNames s ++ pathNames t ↔
      s = [] ∨ s.getLast? = some pathSeparator ∨ t = [] := by
  rcases List.eq_nil_or_concat' s with rfl | ⟨s, b, rfl⟩
  · simp [pathNames]
  rw [List.getLast?_concat, Option.some_inj]
  by_cases hb : b = pathSeparator
  · subst hb
    rw [← List.append_cons, pathNames, components_append_cons (by decide)]
    refine iff_of_true ?_ (.inr (.inl rfl))
    have hsep : isPathSeparator pathSeparator = true := decide_eq_true rfl
    rw [pathNames, components_append_of_forall (List.forall_mem_singleton.2 hsep)]
    rfl
  · cases t with
    | nil => simp [pathNames]
    | cons c t =>
      have hc : c ≠ pathSeparator := fun h => ht (by rw [h, List.head?_cons])
      -- The last name of the first path and the first of the second become one.
      have hlen := length_components_append (p := isPathSeparator) s t
        (decide_eq_false hb) (decide_eq_false hc)
      refine iff_of_false (fun h => ?_) (by simp [hb])
      rw [pathNames, pathNames, pathNames] at h
      rw [h, List.length_append] at hlen
      omega

/-- There is no room for the first path, or there is room for both of them, and a separator between
    them or one of them is empty. -/
def Fits (dstSize : ℕ) (cwd relativePath : CStr) : Prop :=
  dstSize ≤ cwd.1.length + 1 ∨
    (cwd.1.length + relativePath.1.length < dstSize ∧
      (cwd.1 = [] ∨ cwd.1.getLast? = some pathSeparator ∨ relativePath.1 = []))

theorem Joins.fits (hrel : relativePath.1.head? ≠ some pathSeparator)
    (h : Joins m dst dstSize cwd relativePath) : Fits dstSize cwd relativePath := by
  rcases Nat.lt_or_ge (cwd.1.length + 1) dstSize with hlt | hge
  · set k := dstSize - (cwd.1.length + 1) with hk
    obtain ⟨m', hpath, hat, -⟩ :=
      absolutePath_of_lt (m := m) (t := relativePath.1) dst cwd.2 hlt
    have hzero : 0 ∉ cwd.1 ++ relativePath.1.take k := fun h =>
      (List.mem_append.1 h).elim cwd.2 fun h => relativePath.2 (List.mem_of_mem_take h)
    obtain ⟨r, m₁, hpath', -, hr⟩ := h
    obtain ⟨rfl, rfl⟩ := Prod.mk.inj (Option.some.inj (hpath.symm.trans hpath'))
    obtain ⟨-, path, hpathAt, -, ⟨seps, -, hfull⟩, hnames⟩ :=
      hr.resolve_left (Option.some_ne_none dst)
    have heq := hpathAt.eq hat path.2 hzero
    -- As the second path is there in full, it has not been cut.
    rw [List.append_assoc] at hfull
    have hlen := congrArg List.length (List.append_cancel_left (hfull.symm.trans heq))
    rw [List.length_append, List.length_take] at hlen
    rw [heq, List.take_of_length_le (by omega)] at hnames
    exact .inr ⟨by omega, (pathNames_append_iff hrel).1 hnames⟩
  · exact .inl hge

theorem Fits.joins (hsize : 0 < dstSize) (hrel : relativePath.1.head? ≠ some pathSeparator)
    (h : Fits dstSize cwd relativePath) : Joins m dst dstSize cwd relativePath := by
  rcases Nat.lt_or_ge (cwd.1.length + 1) dstSize with hlt | hge
  · obtain ⟨hroom, hbetween⟩ := h.resolve_left (Nat.not_le.2 hlt)
    obtain ⟨m', hpath, hat, hkeep⟩ :=
      absolutePath_of_lt (m := m) (t := relativePath.1) dst cwd.2 hlt
    rw [List.take_of_length_le (by omega)] at hat
    have hzero : 0 ∉ cwd.1 ++ relativePath.1 := fun h =>
      (List.mem_append.1 h).elim cwd.2 relativePath.2
    refine ⟨_, m', hpath, hkeep, .inr ⟨rfl, ⟨_, hzero⟩, hat, ?_, ⟨[], by simp, by simp⟩, ?_⟩⟩
    · rwa [List.length_append]
    · exact (pathNames_append_iff hrel).2 hbetween
  · obtain ⟨m', hpath, hkeep⟩ :=
      absolutePath_of_le (m := m) (t := relativePath.1) dst hsize hge
    exact ⟨_, m', hpath, hkeep, .inl rfl⟩

/-- The paths are joined just if there is no room for the first, or there is room for both of them,
    and a separator between them or one of them is empty. -/
theorem joins_iff (m : Bytes) (dst dstSize : ℕ) (cwd relativePath : CStr) (hsize : 0 < dstSize)
    (hrel : relativePath.1.head? ≠ some pathSeparator) :
    Joins m dst dstSize cwd relativePath ↔ Fits dstSize cwd relativePath :=
  ⟨fun h => h.fits hrel, fun h => h.joins hsize hrel⟩

/-- In the root, whose path is empty, a name is joined. -/
theorem joins_root :
    Joins (fun _ => 0) 0 256 (.ofChars [] (by decide)) (.ofChars ['a'] (by decide)) :=
  (joins_iff _ _ _ _ _ (by decide) (by decide)).2 (.inr ⟨by decide, .inl rfl⟩)

/-- In `/b` a name `a` gives `/ba`; and in the root `ab` is cut if the buffer has two bytes only. -/
theorem not_joins :
    ¬Joins (fun _ => 0) 0 256 (.ofChars ['/', 'b'] (by decide)) (.ofChars ['a'] (by decide)) ∧
      ¬Joins (fun _ => 0) 0 2 (.ofChars [] (by decide)) (.ofChars ['a', 'b'] (by decide)) := by
  constructor
  · intro h
    rcases h.fits (by decide) with h | ⟨-, h | h | h⟩ <;> exact absurd h (by decide)
  · intro h
    rcases h.fits (by decide) with h | ⟨h, -⟩ <;> exact absurd h (by decide)

end Vfs

end DemoOs
