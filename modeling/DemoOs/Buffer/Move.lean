import DemoOs.Buffer.Serial

/-!
# Moving between serial ring buffers

`SRingBuffer::move` takes elements from one buffer to another. How many is computed from the
elements the destination holds, where its room is meant, and the loop goes on until as many are
written: forever, if the destination takes no more.

So `move` does what it is for if what it computes is the number of elements that can be moved, and
either this is zero or the writer of the destination is behind its reader (`transfers_iff`).
-/

namespace DemoOs

namespace SRingBuffer

variable {T : Type*}

/-- The loop of `move`: chunks up to the end of the block of the source, each of them written as far
    as it is accepted. -/
def moveLoop : ℕ → SRingBuffer T → SRingBuffer T → ℤ → Option (SRingBuffer T × SRingBuffer T)
  | 0, b, src, count => if 0 < count then none else some (b, src)
  | fuel + 1, b, src, count =>
    if 0 < count then
      let sc := min (src.capacity - src.rIndex) count
      let (sc, b) := b.writen (chunk src.data src.rIndex sc)
      moveLoop fuel b { src with rIndex := advance src.capacity src.rIndex sc } (count - sc)
    else some (b, src)

/-- Returned are the number of elements, the buffer and the source. The source is another buffer. -/
def move (fuel : ℕ) (b src : SRingBuffer T) (n : ℤ) : Option (ℤ × SRingBuffer T × SRingBuffer T) :=
  let count := min n b.length
  let count := min count src.length
  (moveLoop fuel b src count).map fun (b, src) => (count, b, src)

variable (b src : SRingBuffer T) (n : ℕ)

/-- The room of a buffer, as of a queue of `capacity - 1` elements. -/
def room : ℕ := (b.capacity - 1 - b.contents.length).toNat

/-- How many of `n` elements can be moved. -/
def movable : ℕ := min n (min b.room src.contents.length)

/-- The call returns, and has moved the elements that can be. -/
def Transfers : Prop :=
  ∃ fuel b' src', b.move fuel src n = some ((b.movable src n : ℤ), b', src') ∧
    b'.contents = b.contents ++ src.contents.take (b.movable src n) ∧
    src'.contents = src.contents.drop (b.movable src n)

variable {b src : SRingBuffer T} {n fuel : ℕ}

/-- A buffer that admits to hold elements is full if the writer is not behind the reader. -/
theorem isFull_of_length_pos (hb : b.InRange) (hlen : 0 < b.length) (h : b.rIndex ≤ b.wIndex + 1) :
    b.isFull = true := by
  obtain ⟨hcap, hr₀, hr, hw₀, hw⟩ := hb
  have hsmall : b.capacity + b.wIndex - b.rIndex < 2 ^ 31 := by
    by_contra hlarge
    -- The sum is negative as an `sint`, and so is the remainder.
    have hneg : sint (b.capacity + b.wIndex - b.rIndex) ≤ 0 := by
      rw [sint]
      omega
    have hrem :=
      Int.tmod_nonneg (a := -sint (b.capacity + b.wIndex - b.rIndex)) b.capacity (by omega)
    rw [Int.neg_tmod] at hrem
    rw [length] at hlen
    omega
  rw [isFull, bne_iff_ne]
  by_cases hmax : b.capacity + b.wIndex + 1 - b.rIndex = 2 ^ 31
  · -- The quotient of the least `sint` is negative.
    have hmin : sint (b.capacity + b.wIndex + 1 - b.rIndex) = -2 ^ 31 := by
      rw [hmax]
      decide
    have hquot := tdiv_ne_zero (x := 2 ^ 31) (c := b.capacity) (by omega) (by omega)
    rw [hmin, Int.neg_tdiv]
    omega
  · rw [sint_eq (by omega) (by omega)]
    exact tdiv_ne_zero (by omega) (by omega)

/-- With the writer of the destination behind its reader, and room for the elements, they are
    moved. -/
theorem moveLoop_eq (hb : b.InRange) (hsrc : src.InRange) (hn : n ≤ src.contents.length)
    (hroom : 0 < n → b.wIndex + n < b.rIndex) (hfuel : n ≤ fuel) :
    ∃ b' src', moveLoop fuel b src n = some (b', src') ∧
      b'.contents = b.contents ++ src.contents.take n ∧
      src'.contents = src.contents.drop n := by
  induction fuel generalizing b src n with
  | zero =>
    obtain rfl : n = 0 := by omega
    exact ⟨b, src, rfl, by simp, rfl⟩
  | succ fuel ih =>
    rw [moveLoop]
    split_ifs with hpos
    · have hr := hsrc.rIndex_lt
      have hr₀ := hsrc.rIndex_nonneg
      have hcap := hsrc.capacity_lt
      have hroom := hroom (by omega)
      -- A chunk is not empty, and is written as a whole.
      obtain ⟨k, hk⟩ : ∃ k : ℕ, min (src.capacity - src.rIndex) n = k :=
        ⟨(min (src.capacity - src.rIndex) n).toNat, by omega⟩
      obtain ⟨m, rfl⟩ : ∃ m, n = k + m := ⟨n - k, by omega⟩
      have hsplit := contents_advance (k := k) hsrc (by omega)
      have hlen : (slots src.data src.capacity src.rIndex k).length = k := length_slots
      obtain ⟨b₁, hwriten, hb₁, hcontents, hw₁, hr₁, -⟩ :=
        writen_eq hb (slots src.data src.capacity src.rIndex k) (by rw [hlen]; omega)
      rw [hlen] at hwriten hw₁
      obtain ⟨b', src', hloop, hb', hsrc'⟩ := ih hb₁ (hsrc.advance (n := k)) (n := m)
        (by rw [hsplit, List.length_append, hlen] at hn; omega) (fun _ => by omega) (by omega)
      have hleft : ((k + m : ℕ) : ℤ) - k = (m : ℕ) := by omega
      refine ⟨b', src', ?_, ?_, ?_⟩
      · dsimp only
        rw [hk, chunk_eq (c := src.capacity) hr₀ (by omega), hwriten]
        dsimp only
        rw [advance_eq hcap hr₀ (by omega) (by omega), hleft, hloop]
      · have htake : (slots src.data src.capacity src.rIndex k).take (k + m) = _ :=
          List.take_of_length_le (by omega)
        rw [hb', hcontents, hsplit, List.append_assoc, List.take_append, htake, hlen,
          Nat.add_sub_cancel_left]
      · have hdrop : (slots src.data src.capacity src.rIndex k).drop (k + m) = [] :=
          List.drop_of_length_le (by omega)
        rw [hsrc', hsplit, List.drop_append, hdrop, List.nil_append, hlen, Nat.add_sub_cancel_left]
    · obtain rfl : n = 0 := by omega
      exact ⟨b, src, rfl, by simp, rfl⟩

/-- With the destination full, the loop goes on forever. -/
theorem moveLoop_of_isFull {count : ℤ} (hsrc : src.InRange) (hfull : b.isFull = true)
    (hpos : 0 < count) :
    moveLoop fuel b src count = none := by
  induction fuel with
  | zero => rw [moveLoop, if_pos hpos]
  | succ fuel ih =>
    have hr₀ := hsrc.rIndex_nonneg
    have hr := hsrc.rIndex_lt
    have hsame : advance src.capacity src.rIndex 0 = src.rIndex := by
      rw [advance_eq hsrc.capacity_lt hr₀ (by omega) (by omega), Int.add_zero,
        Int.emod_eq_of_lt hr₀ hr]
    rw [moveLoop, if_pos hpos]
    dsimp only
    rw [writen_of_isFull hfull]
    dsimp only
    rw [hsame, Int.sub_zero, ih]

/-- `move` transfers the elements that can be moved if and only if it computes how many there are,
    and the writer of the destination is behind its reader unless there are none. -/
theorem transfers_iff (hb : b.InRange) (hsrc : src.InRange) (n : ℕ) :
    b.Transfers src n ↔ min (min (n : ℤ) b.length) src.length = b.movable src n ∧
      (b.movable src n = 0 ∨ b.wIndex + 1 < b.rIndex) := by
  have hr₀ := hb.rIndex_nonneg
  have hr := hb.rIndex_lt
  have hw := hb.wIndex_lt
  constructor
  · rintro ⟨fuel, b', src', hmove, -⟩
    obtain ⟨⟨_, _⟩, hloop, heq⟩ := Option.map_eq_some_iff.1 hmove
    have hcount : min (min (n : ℤ) b.length) src.length = b.movable src n := (Prod.ext_iff.1 heq).1
    refine ⟨hcount, ?_⟩
    -- A full target takes nothing, and the loop does not end.
    by_contra hnot
    rw [not_or] at hnot
    have hpos : 0 < min (min (n : ℤ) b.length) src.length := by omega
    have hfull := isFull_of_length_pos hb (by omega) (by omega)
    rw [moveLoop_of_isFull hsrc hfull hpos] at hloop
    cases hloop
  · rintro ⟨hcount, hroom⟩
    have hmovable : b.movable src n ≤ src.contents.length := by
      rw [movable]
      omega
    obtain ⟨b', src', hloop, hb', hsrc'⟩ := moveLoop_eq (n := b.movable src n) hb hsrc hmovable
      (fun hpos => by
        have hbehind := hroom.resolve_left hpos.ne'
        have hlen := length_contents hb hbehind
        have hle : b.movable src n ≤ b.room := by
          rw [movable]
          omega
        rw [room] at hle
        omega) le_rfl
    refine ⟨b.movable src n, b', src', ?_, hb', hsrc'⟩
    rw [move]
    dsimp only
    rw [hcount, hloop]
    rfl

/-- Two elements, to a buffer of eight slots that has three and in which the writer has gone
    around. -/
theorem transfers_two : (⟨7, 2, 8, fun i => if i = 7 then 1 else 2⟩ : SRingBuffer ℕ).Transfers
    ⟨3, 5, 8, fun _ => 9⟩ 2 :=
  (transfers_iff ⟨by decide, by decide, by decide, by decide, by decide⟩
    ⟨by decide, by decide, by decide, by decide, by decide⟩ 2).2 ⟨by decide, .inr (by decide)⟩

/-- To an empty buffer nothing is moved, and to one that holds an element and has gone around
    nowhere, an element is moved forever. -/
theorem not_transfers : (∃ b src : SRingBuffer ℕ, b.InRange ∧ src.InRange ∧ b.movable src 1 = 1 ∧
      (∃ b' src', b.move 0 src 1 = some (0, b', src')) ∧ ¬ b.Transfers src 1) ∧
    ∃ b src : SRingBuffer ℕ, b.InRange ∧ src.InRange ∧ b.movable src 1 = 1 ∧
      (∀ fuel, b.move fuel src 1 = none) ∧ ¬ b.Transfers src 1 := by
  have h₀ : (⟨0, 0, 8, fun _ => 0⟩ : SRingBuffer ℕ).InRange :=
    ⟨by decide, by decide, by decide, by decide, by decide⟩
  have h₁ : (⟨0, 1, 8, fun _ => 0⟩ : SRingBuffer ℕ).InRange :=
    ⟨by decide, by decide, by decide, by decide, by decide⟩
  constructor
  · refine ⟨_, _, h₀, h₁, by decide, ⟨_, _, rfl⟩, ?_⟩
    rintro ⟨fuel, b', src', hmove, -⟩
    obtain ⟨_, -, heq⟩ := Option.map_eq_some_iff.1 hmove
    have hcount : (0 : ℤ) = 1 := (Prod.ext_iff.1 heq).1
    cases hcount
  · have hnone : ∀ fuel,
        move fuel (⟨0, 1, 8, fun _ => 0⟩ : SRingBuffer ℕ) ⟨0, 1, 8, fun _ => 0⟩ 1 = none := by
      intro fuel
      exact congrArg (Option.map _) (moveLoop_of_isFull h₁ (by decide) (by decide))
    refine ⟨_, _, h₁, h₁, by decide, hnone, ?_⟩
    rintro ⟨fuel, b', src', hmove, -⟩
    have hmove : move fuel (⟨0, 1, 8, fun _ => 0⟩ : SRingBuffer ℕ) ⟨0, 1, 8, fun _ => 0⟩ 1 = _ :=
      hmove
    rw [hnone] at hmove
    cases hmove

end SRingBuffer

end DemoOs
