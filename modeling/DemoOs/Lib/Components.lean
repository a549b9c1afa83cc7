import Mathlib.Data.List.Basic
import Mathlib.Data.List.Induction

/-!
# Components

What is between the separators of a list, where that is not empty. A separator splits the components
(`components_append_cons`), and a list without one is a component itself
(`components_eq_singleton`). What has been joined is split again (`splitOnP_intercalate`). Where a
list is appended to another without a separator in between, two components become one
(`length_components_append`).
-/

namespace DemoOs

namespace Components

variable {α : Type*} {p : α → Bool} {l l' n : List α} {a b : α}

/-- The components of a list, with `p` for its separators. -/
def components (p : α → Bool) (l : List α) : List (List α) := (l.splitOnP p).filter (!·.isEmpty)

@[simp] theorem components_nil : components p [] = [] := rfl

/-- A separator splits the components. -/
theorem components_append_cons (ha : p a) :
    components p (l ++ a :: l') = components p l ++ components p l' := by
  rw [components, List.splitOnP_append_cons l l' ha, List.filter_append]
  rfl

theorem components_cons_of_pos (ha : p a) : components p (a :: l) = components p l :=
  components_append_cons (l := []) ha

/-- Separators at the end add nothing. -/
theorem components_append_of_forall (h : ∀ x ∈ l', p x) :
    components p (l ++ l') = components p l := by
  induction l' generalizing l with
  | nil => rw [List.append_nil]
  | cons a l' ih =>
    have hl' : components p l' = [] := by
      rw [← List.nil_append l', ih fun x hx => h x (List.mem_cons_of_mem a hx), components_nil]
    rw [components_append_cons (h a List.mem_cons_self), hl', List.append_nil]

/-- A list without separators is a component. -/
theorem components_eq_singleton (hn : n ≠ []) (h : ∀ x ∈ n, p x = false) :
    components p n = [n] := by
  rw [components, List.splitOnP_eq_singleton h]
  simp [hn]

theorem ne_nil_of_mem_components (h : n ∈ components p l) : n ≠ [] := by
  simpa using (List.mem_filter.1 h).2

/-- There are no separators in what a list is split into. -/
theorem not_sep_of_mem_splitOnP (h : n ∈ l.splitOnP p) : ∀ x ∈ n, p x = false := by
  induction l generalizing n with
  | nil => exact fun x hx => absurd (List.mem_singleton.1 h ▸ hx) List.not_mem_nil
  | cons a l ih =>
    rw [List.splitOnP_cons_eq_if_modifyHead] at h
    split_ifs at h with ha
    · rcases List.mem_cons.1 h with rfl | h
      · exact fun x hx => absurd hx List.not_mem_nil
      · exact ih h
    · obtain ⟨n', l', hl⟩ := List.exists_cons_of_ne_nil (List.splitOnP_ne_nil p l)
      rw [hl, List.modifyHead_cons] at h
      rcases List.mem_cons.1 h with rfl | h
      · intro x hx
        rcases List.mem_cons.1 hx with rfl | hx
        · exact eq_false_of_ne_true ha
        · exact ih (hl ▸ List.mem_cons_self) x hx
      · exact ih (hl ▸ List.mem_cons_of_mem n' h)

/-- What a list is split into is part of it. -/
theorem subset_of_mem_splitOnP (h : n ∈ l.splitOnP p) : n ⊆ l := by
  induction l generalizing n with
  | nil => exact List.mem_singleton.1 h ▸ List.nil_subset []
  | cons a l ih =>
    rw [List.splitOnP_cons_eq_if_modifyHead] at h
    split_ifs at h with ha
    · rcases List.mem_cons.1 h with rfl | h
      · exact List.nil_subset _
      · exact List.subset_cons_of_subset a (ih h)
    · obtain ⟨n', l', hl⟩ := List.exists_cons_of_ne_nil (List.splitOnP_ne_nil p l)
      rw [hl, List.modifyHead_cons] at h
      rcases List.mem_cons.1 h with rfl | h
      · exact List.cons_subset_cons a (ih (hl ▸ List.mem_cons_self))
      · exact List.subset_cons_of_subset a (ih (hl ▸ List.mem_cons_of_mem n' h))

theorem not_sep_of_mem_components (h : n ∈ components p l) : ∀ x ∈ n, p x = false :=
  not_sep_of_mem_splitOnP (List.mem_filter.1 h).1

/-- A separator stands between what is joined by `intercalate`. -/
theorem intercalate_concat (a : α) (cs : List (List α)) (n : List α) :
    [a].intercalate (cs ++ [n]) = if cs = [] then n else [a].intercalate cs ++ a :: n := by
  induction cs with
  | nil => simp [List.intercalate_singleton]
  | cons c cs ih =>
    rw [List.cons_append, List.intercalate_cons_of_ne_nil (by simp), ih,
      if_neg (List.cons_ne_nil c cs)]
    by_cases hcs : cs = []
    · simp [hcs, List.intercalate_singleton]
    · rw [if_neg hcs, List.intercalate_cons_of_ne_nil hcs]
      simp

/-- What has been joined is split again. -/
theorem splitOnP_intercalate (ha : p a) {cs : List (List α)} (hcs : cs ≠ [])
    (hsep : ∀ n ∈ cs, ∀ x ∈ n, p x = false) : ([a].intercalate cs).splitOnP p = cs := by
  induction cs with
  | nil => exact absurd rfl hcs
  | cons n cs ih =>
    have hn := hsep n List.mem_cons_self
    by_cases hcs : cs = []
    · rw [hcs, List.intercalate_singleton, List.splitOnP_eq_singleton hn]
    · rw [List.intercalate_cons_of_ne_nil hcs, List.append_assoc, List.singleton_append,
        List.splitOnP_append_cons_of_forall_mem hn a ha,
        ih hcs fun m hm => hsep m (List.mem_cons_of_mem n hm)]

/-! ## Appending -/

/-- An element begins a component, or goes on with one. -/
theorem length_components_cons (ha : p a = false) :
    (components p (a :: l)).length =
      (components p l).length + if l.head?.any (!p ·) then 0 else 1 := by
  rw [components, List.splitOnP_cons_eq_if_modifyHead, if_neg (by simp [ha])]
  cases l with
  | nil => rfl
  | cons b l =>
    rw [components, List.splitOnP_cons_eq_if_modifyHead]
    by_cases hb : p b
    · simp [hb]
    · obtain ⟨n, ns, hl⟩ := List.exists_cons_of_ne_nil (List.splitOnP_ne_nil p l)
      simp [hb, hl]

/-- Where there is no separator between two lists, two components become one. -/
theorem length_components_append (l l' : List α) (ha : p a = false) (hb : p b = false) :
    (components p (l ++ [a] ++ b :: l')).length + 1 =
      (components p (l ++ [a])).length + (components p (b :: l')).length := by
  induction l with
  | nil =>
    rw [List.nil_append, List.singleton_append, length_components_cons ha,
      components_eq_singleton (List.cons_ne_nil a []) (by simpa using ha)]
    simp [hb, Nat.add_comm]
  | cons c l ih =>
    by_cases hc : p c
    · simp only [List.cons_append, components_cons_of_pos hc]
      exact ih
    · have hhead : (l ++ [a] ++ b :: l').head? = (l ++ [a]).head? := by cases l <;> rfl
      simp only [List.cons_append, length_components_cons (eq_false_of_ne_true hc), hhead]
      omega

/-! ## The last component -/

/-- A list with separators has a last one. -/
theorem exists_last_sep (h : ∃ x ∈ l, p x) : ∃ pre a n, p a ∧ (∀ x ∈ n, p x = false) ∧
    l = pre ++ a :: n := by
  induction l using List.reverseRecOn with
  | nil => simp at h
  | append_singleton l c ih =>
    by_cases hc : p c
    · exact ⟨l, c, [], hc, by simp, rfl⟩
    · obtain ⟨x, hx, hpx⟩ := h
      have hx := (List.mem_append.1 hx).resolve_right fun hx => hc (List.mem_singleton.1 hx ▸ hpx)
      obtain ⟨pre, a, n, ha, hn, rfl⟩ := ih ⟨x, hx, hpx⟩
      refine ⟨pre, a, n ++ [c], ha, fun y hy => ?_, by simp⟩
      rcases List.mem_append.1 hy with hy | hy
      · exact hn y hy
      · exact List.mem_singleton.1 hy ▸ eq_false_of_ne_true hc

/-- A list with other elements than separators has a last component, the separators after it, and
    maybe one before it. -/
theorem exists_last (h : ∃ x ∈ l, p x = false) :
    ∃ n seps, n ≠ [] ∧ (∀ x ∈ n, p x = false) ∧ (∀ x ∈ seps, p x) ∧
      (l = n ++ seps ∨ ∃ pre a, p a ∧ l = pre ++ a :: n ++ seps) := by
  induction l using List.reverseRecOn with
  | nil => simp at h
  | append_singleton l c ih =>
    by_cases hc : p c
    · obtain ⟨x, hx, hpx⟩ := h
      have hx := (List.mem_append.1 hx).resolve_right fun hx =>
        absurd (List.mem_singleton.1 hx ▸ hc) (by simp [hpx])
      obtain ⟨n, seps, hn, hsep, hseps, hl⟩ := ih ⟨x, hx, hpx⟩
      refine ⟨n, seps ++ [c], hn, hsep, fun y hy => ?_, ?_⟩
      · rcases List.mem_append.1 hy with hy | hy
        · exact hseps y hy
        · exact List.mem_singleton.1 hy ▸ hc
      · rcases hl with rfl | ⟨pre, b, hb, rfl⟩
        · exact .inl (List.append_assoc ..)
        · exact .inr ⟨pre, b, hb, by simp⟩
    · -- The last component ends here, and begins after the last separator.
      by_cases hl : ∃ x ∈ l ++ [c], p x
      · obtain ⟨pre, a, n, ha, hn, hsplit⟩ := exists_last_sep hl
        refine ⟨n, [], ?_, hn, by simp, .inr ⟨pre, a, ha, by simpa using hsplit⟩⟩
        rintro rfl
        have hca : c = a := by simpa using congrArg List.getLast? hsplit
        exact hc (hca ▸ ha)
      · exact ⟨l ++ [c], [], by simp, fun x hx => eq_false_of_ne_true fun hpx => hl ⟨x, hx, hpx⟩,
          by simp, .inl (List.append_nil _).symm⟩

end Components

end DemoOs
