import Mathlib.Data.List.Basic

/-!
# Searching a list

Facts about `List.find?`: the only element with a property is found (`find?_eq_some_of_unique`), and
the searches for a property and for a stronger one agree just if the elements that have the latter
come first (`find?_eq_find?_iff`).
-/

namespace DemoOs

namespace Search

variable {α : Type*} {p q : α → Bool} {l : List α} {a : α}

/-- The only element with a property is found. -/
theorem find?_eq_some_of_unique (ha : a ∈ l) (hpa : p a) (h : ∀ x ∈ l, p x → x = a) :
    l.find? p = some a := by
  cases hfind : l.find? p with
  | none => exact absurd hpa (List.find?_eq_none.1 hfind a ha)
  | some b => rw [h b (List.mem_of_find?_eq_some hfind) (List.find?_some hfind)]

/-- A search for `p` finds what the search for the stronger `q` finds just if every element that has
    `p` but not `q` comes after one that has `q`. -/
theorem find?_eq_find?_iff [BEq α] [LawfulBEq α] (hqp : ∀ x, q x → p x) :
    l.find? p = l.find? q ↔
      ∀ x ∈ l, p x → ¬q x → ∃ y ∈ l, q y ∧ l.idxOf y < l.idxOf x := by
  induction l with
  | nil => simp
  | cons a l ih =>
    by_cases hqa : q a
    · -- Both searches stop here, and all other elements come after `a`.
      rw [List.find?_cons_of_pos hqa, List.find?_cons_of_pos (hqp a hqa)]
      refine iff_of_true rfl fun x _ _ hqx => ⟨a, List.mem_cons_self, hqa, ?_⟩
      have hne : a ≠ x := fun h => hqx (h ▸ hqa)
      rw [List.idxOf_cons_self, List.idxOf_cons_ne l hne]
      exact Nat.succ_pos _
    · by_cases hpa : p a
      · rw [List.find?_cons_of_pos hpa, List.find?_cons_of_neg hqa]
        refine iff_of_false (fun h => hqa (List.find?_some h.symm)) fun h => ?_
        obtain ⟨y, -, -, hlt⟩ := h a List.mem_cons_self hpa hqa
        rw [List.idxOf_cons_self] at hlt
        exact absurd hlt (Nat.not_lt_zero _)
      · rw [List.find?_cons_of_neg hpa, List.find?_cons_of_neg hqa, ih]
        have hne : ∀ {x}, p x → a ≠ x := fun hx h => hpa (h ▸ hx)
        constructor
        · intro h x hx hpx hqx
          have hxl := (List.mem_cons.1 hx).resolve_left (hne hpx).symm
          obtain ⟨y, hy, hqy, hlt⟩ := h x hxl hpx hqx
          refine ⟨y, List.mem_cons_of_mem a hy, hqy, ?_⟩
          rw [List.idxOf_cons_ne l (hne (hqp y hqy)), List.idxOf_cons_ne l (hne hpx)]
          exact Nat.succ_lt_succ hlt
        · intro h x hx hpx hqx
          obtain ⟨y, hy, hqy, hlt⟩ := h x (List.mem_cons_of_mem a hx) hpx hqx
          refine ⟨y, (List.mem_cons.1 hy).resolve_left (hne (hqp y hqy)).symm, hqy, ?_⟩
          rw [List.idxOf_cons_ne l (hne (hqp y hqy)), List.idxOf_cons_ne l (hne hpx)] at hlt
          exact Nat.lt_of_succ_lt_succ hlt

end Search

end DemoOs
