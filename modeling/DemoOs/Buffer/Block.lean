import DemoOs.Types
import DemoOs.Lib.Circular

/-!
# The block of a ring buffer

Both ring buffers (`ringbuffer.h`) keep their elements in one block, go around at its end, and read
in bulk by one loop: chunks up to the end of the block (`copyOut`). From an index in range the loop
ends, and what it copies are the slots from there on (`copyOut_eq`).
-/

namespace DemoOs

variable {T : Type*}

/-- `(i + n) % capacity`, as a signed operation. -/
def advance (capacity i n : ℤ) : ℤ := (sint (i + n)).tmod capacity

/-- `memcpy` of `c` elements from `_data + i`. -/
def chunk (data : ℤ → T) (i c : ℤ) : List T := (List.range c.toNat).map fun k : ℕ => data (i + k)

/-- The loop of `readn`. It ends within as many turns as there are elements to read, if every chunk
    has one. Returned are the elements, and the index of the reader. -/
def copyOut (data : ℤ → T) (capacity : ℤ) : ℕ → ℤ → ℤ → Option (List T × ℤ)
  | 0, rIndex, count => if 0 < count then none else some ([], rIndex)
  | fuel + 1, rIndex, count =>
    if 0 < count then
      let c := min (capacity - rIndex) count
      (copyOut data capacity fuel (advance capacity rIndex c) (count - c)).map
        fun (es, r) => (chunk data rIndex c ++ es, r)
    else some ([], rIndex)

/-! ## Slots -/

theorem advance_eq {c i n : ℤ} (hc : c < 2 ^ 31) (hi : 0 ≤ i) (hn : 0 ≤ n) (h : i + n ≤ c) :
    advance c i n = (i + n) % c := by
  rw [advance, sint_eq (by omega) (by omega), Int.tmod_eq_emod_of_nonneg (by omega)]

/-- The distance from one slot to another. -/
theorem sub_emod_eq {c r w : ℤ} (hr₀ : 0 ≤ r) (hr : r < c) (hw₀ : 0 ≤ w) (hw : w < c) :
    (w - r) % c = if r ≤ w then w - r else w - r + c := by
  split_ifs with h
  · exact Int.emod_eq_of_lt (by omega) (by omega)
  · rw [← Int.add_emod_right, Int.emod_eq_of_lt (by omega) (by omega)]

/-- A distance, when part of it has been gone. -/
theorem sub_emod_of_le {a c k : ℤ} (hc : 0 < c) (hk : 0 ≤ k) (h : k ≤ a % c) :
    (a - k) % c = a % c - k := by
  have hlt := Int.emod_lt_of_pos a hc
  rw [← Int.emod_sub_emod, Int.emod_eq_of_lt (by omega) (by omega)]

/-- The `n` elements from slot `i` on, going around at the end. -/
def slots (data : ℤ → T) (c i : ℤ) (n : ℕ) : List T :=
  Circular.window c.toNat i.toNat n fun k => data k

variable {data : ℤ → T} {c i : ℤ} {m n : ℕ}

@[simp] theorem slots_zero : slots data c i 0 = [] := rfl

@[simp] theorem length_slots : (slots data c i n).length = n := Circular.length_window

/-- Going on from a slot reached by going around. -/
theorem slots_emod (hc : 0 < c) (hi : 0 ≤ i) :
    slots data c ((i + m) % c) n = Circular.window c.toNat (i.toNat + m) n fun k => data k := by
  rw [slots, ← Circular.window_mod (r := i.toNat + m), Int.toNat_emod (by omega) (by omega),
    Int.toNat_add hi (by omega), Int.toNat_natCast]

theorem slots_append (hc : 0 < c) (hi : 0 ≤ i) :
    slots data c i (m + n) = slots data c i m ++ slots data c ((i + m) % c) n := by
  rw [slots_emod hc hi]
  exact Circular.window_append

theorem slots_cons (h₀ : 0 ≤ i) (h : i < c) :
    slots data c i (n + 1) = data i :: slots data c ((i + 1) % c) n := by
  have hi : i.toNat % c.toNat = i.toNat := Nat.mod_eq_of_lt (by omega)
  have hnext : slots data c ((i + (1 : ℕ)) % c) n =
      Circular.window c.toNat (i.toNat + 1) n fun k => data k := slots_emod (by omega) h₀
  rw [Int.natCast_one] at hnext
  rw [hnext, slots, Circular.window_front, hi, Int.toNat_of_nonneg h₀]

/-- Writing to the slot after the last. -/
theorem slots_update {w : ℤ} {d : T} (h₀ : 0 ≤ i) (hn : n < c)
    (hw : (i + n) % c = w) :
    slots (Function.update data w d) c i (n + 1) = slots data c i n ++ [d] := by
  have hback : (((i.toNat + n) % c.toNat : ℕ) : ℤ) = w := by
    rw [Int.natCast_emod, Int.natCast_add, Int.toNat_of_nonneg h₀,
      Int.toNat_of_nonneg (by omega), hw]
  rw [slots, Circular.window_back, hback, Function.update_self]
  refine congrArg (· ++ [d]) (Circular.window_congr fun k hk => Function.update_of_ne ?_ ..)
  rw [← hback]
  exact fun h => Circular.slot_ne hk (by omega) (Int.ofNat_inj.1 h)

/-- Up to the end of the block, the slots are consecutive. -/
theorem chunk_eq (h₀ : 0 ≤ i) (h : i + n ≤ c) : chunk data i n = slots data c i n := by
  rw [chunk, Int.toNat_natCast]
  refine List.map_congr_left fun k hk => ?_
  have hk := List.mem_range.1 hk
  have hslot : (i.toNat + k) % c.toNat = i.toNat + k := Nat.mod_eq_of_lt (by omega)
  rw [hslot]
  exact congrArg data (by omega)

/-! ## Reading in bulk -/

/-- The loop copies the slots from the reader on. -/
theorem copyOut_eq {fuel count : ℕ} (hc : c < 2 ^ 31) (h₀ : 0 ≤ i) (h : i < c)
    (hfuel : count ≤ fuel) :
    copyOut data c fuel i count = some (slots data c i count, (i + count) % c) := by
  induction fuel generalizing i count with
  | zero =>
    obtain rfl : count = 0 := by omega
    simp [copyOut, Int.emod_eq_of_lt h₀ h]
  | succ fuel ih =>
    rw [copyOut]
    split_ifs with hpos
    · -- A chunk is not empty, and ends at the end of the block or with the last element.
      obtain ⟨k, hk⟩ : ∃ k : ℕ, min (c - i) count = k := ⟨(min (c - i) count).toNat, by omega⟩
      obtain ⟨m, rfl⟩ : ∃ m, count = k + m := ⟨count - k, by omega⟩
      have hrest : ((k + m : ℕ) : ℤ) - k = (m : ℕ) := by omega
      have hnext : 0 ≤ (i + k) % c ∧ (i + k) % c < c :=
        ⟨Int.emod_nonneg _ (by omega), Int.emod_lt_of_pos _ (by omega)⟩
      have hadv := advance_eq hc h₀ (by omega : (0 : ℤ) ≤ k) (by omega)
      dsimp only
      rw [hk, hadv, hrest, ih hnext.1 hnext.2 (by omega), chunk_eq (c := c) h₀ (by omega),
        slots_append (by omega) h₀]
      simp [Int.add_assoc]
    · obtain rfl : count = 0 := by omega
      simp [Int.emod_eq_of_lt h₀ h]

end DemoOs
