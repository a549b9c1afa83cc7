import Mathlib.Data.List.Nodup
import Mathlib.Logic.Function.Basic

/-!
# Families of lists

Lists that share no element, as are the lists of nodes with one link each (`Apart`). An element may
be taken out of whichever list it is in and put at the end of one of them (`move`): what is on the
lists then is said by `Apart.mem_move`, and how long they are by `length_move_self` and
`Apart.length_move_of_mem`.
-/

namespace DemoOs

namespace Family

variable {ι α : Type*} [DecidableEq ι] [DecidableEq α] {L : ι → List α} {x y : α} {h k : ι}

/-- No element is on two of the lists, or twice on one. -/
structure Apart (L : ι → List α) : Prop where
  nodup : ∀ h, (L h).Nodup
  unique : ∀ {h k x}, x ∈ L h → x ∈ L k → h = k

/-- The lists without the element, but for the end of the list `k`. -/
def move (L : ι → List α) (x : α) (k : ι) : ι → List α := fun h =>
  if h = k then (L h).erase x ++ [x] else (L h).erase x

theorem move_self : move L x k k = (L k).erase x ++ [x] := if_pos rfl

theorem move_of_ne (hne : h ≠ k) : move L x k h = (L h).erase x := if_neg hne

theorem length_move_self (hx : x ∉ L k) : (move L x k k).length = (L k).length + 1 := by
  rw [move_self, List.erase_of_not_mem hx, List.length_append, List.length_singleton]

theorem length_move_of_mem (hx : x ∈ L h) (hne : h ≠ k) :
    (move L x k h).length + 1 = (L h).length := by
  rw [move_of_ne hne, List.length_erase_of_mem hx, Nat.sub_add_cancel (List.length_pos_of_mem hx)]

namespace Apart

variable (hL : Apart L)
include hL

theorem mem_move : y ∈ move L x k h ↔ (y = x ∧ h = k) ∨ (y ≠ x ∧ y ∈ L h) := by
  by_cases hk : h = k
  · subst hk
    rw [move_self, List.mem_append, List.mem_singleton, (hL.nodup h).mem_erase_iff]
    simp [or_comm]
  · rw [move_of_ne hk, (hL.nodup h).mem_erase_iff]
    simp [hk]

theorem mem_move_of_ne (hne : y ≠ x) : y ∈ move L x k h ↔ y ∈ L h := by
  simp [hL.mem_move, hne]

theorem move (x : α) (k : ι) : Apart (move L x k) where
  nodup h := by
    have herase := (hL.nodup h).erase x
    by_cases hk : h = k
    · subst hk
      rw [move_self, List.nodup_append']
      exact ⟨herase, List.nodup_singleton x, by simpa using (hL.nodup h).not_mem_erase⟩
    · rwa [move_of_ne hk]
  unique {h h' y} hh hh' := by
    rcases hL.mem_move.1 hh with ⟨rfl, rfl⟩ | ⟨hne, hh⟩
    · exact ((hL.mem_move.1 hh').resolve_right fun h => h.1 rfl).2.symm
    · exact hL.unique hh ((hL.mem_move_of_ne hne).1 hh')

omit [DecidableEq ι] [DecidableEq α] in
/-- Elements may be dropped. -/
theorem of_sublist {L' : ι → List α} (hsub : ∀ h, (L' h).Sublist (L h)) : Apart L' where
  nodup h := (hL.nodup h).sublist (hsub h)
  unique hh hk := hL.unique ((hsub _).subset hh) ((hsub _).subset hk)

omit [DecidableEq α] in
/-- A new element is put in front of a list. -/
theorem cons (hx : ∀ h, x ∉ L h) (k : ι) : Apart (Function.update L k (x :: L k)) where
  nodup h := by
    by_cases hk : h = k
    · subst hk
      rw [Function.update_self]
      exact (hL.nodup h).cons (hx h)
    · rw [Function.update_of_ne hk]
      exact hL.nodup h
  unique {h h' y} hh hh' := by
    have hmem : ∀ {j}, y ∈ Function.update L k (x :: L k) j → y ∈ L j ∨ y = x ∧ j = k := by
      intro j hj
      by_cases hk : j = k
      · subst hk
        rw [Function.update_self, List.mem_cons] at hj
        exact hj.symm.imp_right fun heq => ⟨heq, rfl⟩
      · rw [Function.update_of_ne hk] at hj
        exact .inl hj
    rcases hmem hh with h₁ | ⟨rfl, rfl⟩
    · rcases hmem hh' with h₂ | ⟨rfl, -⟩
      · exact hL.unique h₁ h₂
      · exact absurd h₁ (hx h)
    · rcases hmem hh' with h₂ | ⟨-, rfl⟩
      · exact absurd h₂ (hx h')
      · rfl

/-- The first element of a list goes to another. -/
theorem move_of_cons {l : List α} (hh : L h = x :: l) (hne : h ≠ k) :
    Family.move L x k = Function.update (Function.update L h l) k (L k ++ [x]) := by
  have hx : x ∈ L h := by simp [hh]
  funext j
  by_cases hk : j = k
  · subst hk
    rw [move_self, Function.update_self, List.erase_of_not_mem fun hj => hne (hL.unique hx hj)]
  · rw [move_of_ne hk, Function.update_of_ne hk]
    by_cases hj : j = h
    · subst hj
      rw [Function.update_self, hh, List.erase_cons_head]
    · rw [Function.update_of_ne hj, List.erase_of_not_mem fun hx' => hj (hL.unique hx' hx)]

end Apart

end Family

end DemoOs
