import DemoOs.Lib.Loop
import Mathlib.Tactic.SplitIfs

/-!
# Filling memory

Memory in which a value is stored over and over, by stores of different sizes, which are kept in a
log. `Filled v lo hi` says that from `lo` up to `hi` there is `v`, that nothing else has changed,
and that the stores have been within these bounds, each at a multiple of its size. Ranges that are
filled one after the other are filled as a whole (`Filled.trans`).

A loop that goes on by a fixed number of places, and fills them in every turn, fills the range it
goes through (`loop_filled`). The places may be represented by addresses in any way, as by numbers
modulo a power of two.
-/

namespace DemoOs

/-- Memory, and the stores: where, and of how many places. -/
structure Storage (β : Type*) where
  mem : ℕ → β
  stores : List (ℕ × ℕ)

namespace Storage

variable {β : Type*} {v : β} {s s' s'' : Storage β} {lo mid hi D k fuel : ℕ}

/-- From `lo` up to `hi` there is `v`, by aligned stores. -/
structure Filled (v : β) (lo hi : ℕ) (s s' : Storage β) : Prop where
  mem : ∀ a, s'.mem a = if lo ≤ a ∧ a < hi then v else s.mem a
  stores : ∀ e ∈ s'.stores, e ∈ s.stores ∨ (lo ≤ e.1 ∧ e.1 + e.2 ≤ hi ∧ e.2 ∣ e.1)

theorem Filled.refl (v : β) (lo : ℕ) (s : Storage β) : Filled v lo lo s s where
  mem _ := (if_neg fun h => Nat.not_lt.2 h.1 h.2).symm
  stores _ he := .inl he

theorem Filled.trans (h : Filled v lo mid s s') (h' : Filled v mid hi s' s'') (hlo : lo ≤ mid)
    (hhi : mid ≤ hi) :
    Filled v lo hi s s'' where
  mem a := by
    rw [h'.mem, h.mem]
    split_ifs <;> first | rfl | omega
  stores e he := by
    rcases h'.stores e he with he | ⟨hle, hlt, hdvd⟩
    · exact (h.stores e he).imp_right fun ⟨hle, hlt, hdvd⟩ => ⟨hle, Nat.le_trans hlt hhi, hdvd⟩
    · exact .inr ⟨Nat.le_trans hlo hle, hlt, hdvd⟩

/-- A store of `k` places, which has been put into the log. -/
theorem Filled.of_store (hmem : ∀ a, s'.mem a = if D ≤ a ∧ a < D + k then v else s.mem a)
    (hstores : s'.stores = (D, k) :: s.stores) (hdvd : k ∣ D) : Filled v D (D + k) s s' where
  mem := hmem
  stores e he := by
    rw [hstores] at he
    rcases List.mem_cons.1 he with rfl | he
    · exact .inr ⟨Nat.le_refl D, Nat.le_refl _, hdvd⟩
    · exact .inl he

/-- A loop on memory and an address, which goes on by `k` in every turn. -/
theorem loop_filled {cond : Storage β × ℕ → Bool} {body : Storage β × ℕ → Storage β × ℕ}
    (rep : ℕ → ℕ) (n : ℕ)
    (hbody : ∀ s D, lo ≤ D → D + k ≤ hi → k ∣ D - lo →
      Filled v D (D + k) s (body (s, rep D)).1 ∧ (body (s, rep D)).2 = rep (D + k))
    (hcond : ∀ s D, lo ≤ D → D + k ≤ hi → cond (s, rep D) = true)
    (hstop : ∀ s, cond (s, rep hi) = false)
    (hn : lo + n * k = hi) (hfuel : n < fuel) :
    ∃ s', loop cond body fuel (s, rep lo) = some (s', rep hi) ∧ Filled v lo hi s s' := by
  -- With `n` turns to be taken, the loop is `n * k` places before the end.
  let I (n : ℕ) (t : Storage β × ℕ) : Prop :=
    ∃ D, lo ≤ D ∧ k ∣ D - lo ∧ D + n * k = hi ∧ t.2 = rep D ∧ Filled v lo D s t.1
  have hturn : ∀ {n t}, I (n + 1) t → cond t = true ∧ I n (body t) := by
    rintro n ⟨s₁, p⟩ ⟨D, hlo, hdvd, hD, rfl, hfilled⟩
    have hle : D + k + n * k = hi := by rw [← hD, Nat.succ_mul, Nat.add_assoc, Nat.add_comm k]
    obtain ⟨hstore, hnext⟩ := hbody s₁ D hlo (Nat.le.intro hle) hdvd
    refine ⟨hcond s₁ D hlo (Nat.le.intro hle), D + k, Nat.le_add_right_of_le hlo, ?_, hle, hnext,
      hfilled.trans hstore hlo (Nat.le_add_right D k)⟩
    rw [Nat.sub_add_comm hlo]
    exact Nat.dvd_add hdvd (Nat.dvd_refl k)
  have hlast : ∀ {t}, I 0 t → cond t = false := by
    rintro ⟨s₁, p⟩ ⟨D, -, -, hD, rfl, -⟩
    rw [Nat.zero_mul, Nat.add_zero] at hD
    exact hD ▸ hstop s₁
  have hstart : I n (s, rep lo) :=
    ⟨lo, Nat.le_refl lo, by rw [Nat.sub_self]; exact Nat.dvd_zero k, hn, rfl, .refl v lo s⟩
  obtain ⟨⟨s', p⟩, hloop, D, -, -, hD, rfl, hfilled⟩ := loop_spec hturn hlast hstart hfuel
  rw [Nat.zero_mul, Nat.add_zero] at hD
  subst hD
  exact ⟨s', hloop, hfilled⟩

end Storage

end DemoOs
