import DemoOs.Buffer.Block
import DemoOs.Lib.BoundedQueue
import DemoOs.Lib.Run

/-!
# The serial ring buffer

`SRingBuffer` (`ringbuffer.h`) keeps two indices and no count. It is meant for a queue of `capacity
- 1` elements, and `isEmpty`, `isFull`, `length` and `freeSpace` each have a formula of their own.

* The reading side is as meant: from any indices in range, `read` and `readn` take the oldest
  elements of `contents` (`read_eq`, `readn_eq`).
* `isFull` divides where a remainder is meant, so that it says yes whenever the writer is not behind
  the reader by two slots or more (`isFull_iff`): a fresh buffer is full, and stays so whatever is
  done with it (`isFull_of_run`). `freeSpace` is one too large, and zero for an empty buffer
  (`freeSpace_eq`).
-/

namespace DemoOs

variable {T : Type*}

/-- The fields of a buffer whose `init` has got the block `data` from the heap. -/
structure SRingBuffer (T : Type*) where
  rIndex : ℤ
  wIndex : ℤ
  capacity : ℤ
  data : ℤ → T

/-- The calls on a buffer. -/
inductive RingOp (T : Type*)
  | write (e : T)
  | writen (es : List T)
  | read
  | readn (n : ℕ)
  | reset

/-- What the calls return. -/
inductive RingReply (T : Type*)
  | written (ok : Bool)
  | count (n : ℤ)
  | element (e : Option T)
  | elements (es : List T)
  | done
  deriving DecidableEq

/-- A call on a queue of up to `k` elements. -/
def RingOp.onQueue (k : ℕ) (q : List T) : RingOp T → RingReply T × List T
  | .write e => (.written (q.length < k), BoundedQueue.put k q [e])
  | .writen es => (.count (min es.length (k - q.length) : ℕ), BoundedQueue.put k q es)
  | .read => (.element q.head?, q.tail)
  | .readn n => (.elements (q.take n), q.drop n)
  | .reset => (.done, [])

namespace SRingBuffer

variable (b : SRingBuffer T)

/-- `init` asserts that the size is positive. -/
def init (bufSize : ℤ) (data : ℤ → T) : Option (SRingBuffer T) :=
  if 0 < bufSize then some ⟨0, 0, bufSize, data⟩ else none

def reset : SRingBuffer T := { b with rIndex := 0, wIndex := 0 }

/-- The quotient, as a condition. -/
def isFull : Bool := (sint (b.capacity + b.wIndex + 1 - b.rIndex)).tdiv b.capacity != 0

def isEmpty : Bool := b.rIndex == b.wIndex

def length : ℤ := (sint (b.capacity + b.wIndex - b.rIndex)).tmod b.capacity

def freeSpace : ℤ := (sint (b.capacity + b.rIndex - b.wIndex)).tmod b.capacity

def write (e : T) : Bool × SRingBuffer T :=
  if b.isFull then (false, b)
  else (true, { b with
    data := Function.update b.data b.wIndex e
    wIndex := advance b.capacity b.wIndex 1 })

/-- Writing the elements in turn, until one is refused. -/
def writen (b : SRingBuffer T) : List T → ℤ × SRingBuffer T
  | [] => (0, b)
  | e :: es =>
    match b.write e with
    | (true, b') => ((writen b' es).1 + 1, (writen b' es).2)
    | (false, _) => (0, b)

def read : Option T × SRingBuffer T :=
  if b.isEmpty then (none, b)
  else (some (b.data b.rIndex), { b with rIndex := advance b.capacity b.rIndex 1 })

def readn (n : ℤ) : Option (List T × SRingBuffer T) :=
  let count := if b.length > n then n else b.length
  (copyOut b.data b.capacity count.toNat b.rIndex count).map
    fun (es, rIndex) => (es, { b with rIndex })

/-- Writing the elements in turn, whether or not they are refused. -/
def writes (es : List T) : SRingBuffer T := es.foldl (fun b e => (b.write e).2) b

/-- A call, with what it returns. -/
def call : RingOp T → Option (RingReply T × SRingBuffer T)
  | .write e => some (.written (b.write e).1, (b.write e).2)
  | .writen es => some (.count (b.writen es).1, (b.writen es).2)
  | .read => some (.element b.read.1, b.read.2)
  | .readn n => (b.readn n).map fun (es, b') => (.elements es, b')
  | .reset => some (.done, b.reset)

end SRingBuffer

namespace SRingBuffer

/-! ## Indices in range -/

variable {b : SRingBuffer T}

/-- The indices are of the block, which is of a size an `sint` holds. -/
structure InRange (b : SRingBuffer T) : Prop where
  capacity_lt : b.capacity < 2 ^ 31
  rIndex_nonneg : 0 ≤ b.rIndex
  rIndex_lt : b.rIndex < b.capacity
  wIndex_nonneg : 0 ≤ b.wIndex
  wIndex_lt : b.wIndex < b.capacity

/-- The elements between the reader and the writer. -/
def contents (b : SRingBuffer T) : List T :=
  slots b.data b.capacity b.rIndex ((b.wIndex - b.rIndex) % b.capacity).toNat

theorem InRange.advance {n : ℤ} (hb : b.InRange) :
    InRange { b with rIndex := (b.rIndex + n) % b.capacity } where
  capacity_lt := hb.capacity_lt
  rIndex_nonneg := Int.emod_nonneg _ (by have := hb.rIndex_nonneg; have := hb.rIndex_lt; omega)
  rIndex_lt := Int.emod_lt_of_pos _ (by have := hb.rIndex_nonneg; have := hb.rIndex_lt; omega)
  wIndex_nonneg := hb.wIndex_nonneg
  wIndex_lt := hb.wIndex_lt

/-- What is between the indices, when the reader has gone on over `k` elements. -/
theorem contents_advance {k : ℕ} (hb : b.InRange) (hk : k ≤ b.contents.length) :
    b.contents = slots b.data b.capacity b.rIndex k ++
      contents { b with rIndex := (b.rIndex + k) % b.capacity } := by
  obtain ⟨_, hr₀, hr, hw₀, hw⟩ := hb
  have hpos : 0 < b.capacity := by omega
  have hdist := Int.emod_nonneg (b.wIndex - b.rIndex) (by omega : b.capacity ≠ 0)
  rw [contents, length_slots] at hk
  have hleft : (b.wIndex - (b.rIndex + k) % b.capacity) % b.capacity =
      (b.wIndex - b.rIndex) % b.capacity - k := by
    rw [Int.sub_emod_emod, ← Int.sub_sub, sub_emod_of_le hpos (by omega) (by omega)]
  have hlen : ((b.wIndex - b.rIndex) % b.capacity).toNat =
      k + ((b.wIndex - (b.rIndex + k) % b.capacity) % b.capacity).toNat := by omega
  rw [contents, hlen, slots_append hpos hr₀]
  rfl

/-! ## Reading -/

theorem isEmpty_iff (hb : b.InRange) : b.isEmpty = true ↔ b.contents = [] := by
  obtain ⟨_, hr₀, hr, hw₀, hw⟩ := hb
  have hdist := sub_emod_eq hr₀ hr hw₀ hw
  rw [isEmpty, beq_iff_eq, ← List.length_eq_zero_iff, contents, length_slots, hdist]
  split_ifs <;> omega

/-- The oldest element is read, if there is one. -/
theorem read_eq (hb : b.InRange) :
    (b.contents = [] ∧ b.read = (none, b)) ∨ ∃ e es b', b.contents = e :: es ∧
      b.read = (some e, b') ∧ b'.contents = es ∧ b'.InRange ∧ b'.capacity = b.capacity := by
  by_cases hempty : b.isEmpty = true
  · exact .inl ⟨(isEmpty_iff hb).1 hempty, by rw [read, if_pos hempty]⟩
  · have hcons : 1 ≤ b.contents.length :=
      List.length_pos_iff.2 fun h => hempty ((isEmpty_iff hb).2 h)
    have hadv := advance_eq (n := 1) hb.capacity_lt hb.rIndex_nonneg (by omega)
      (by have := hb.rIndex_lt; omega)
    refine .inr ⟨b.data b.rIndex, _, { b with rIndex := (b.rIndex + 1) % b.capacity }, ?_, ?_, rfl,
      hb.advance, rfl⟩
    · rw [contents_advance hb hcons, slots_cons hb.rIndex_nonneg hb.rIndex_lt]
      rfl
    · rw [read, if_neg hempty, hadv]

/-- For up to `2^30` elements, `length` is the number of `contents`. -/
theorem length_eq (hb : b.InRange) (hcap : b.capacity ≤ 2 ^ 30) : b.length = b.contents.length := by
  obtain ⟨_, hr₀, hr, hw₀, hw⟩ := hb
  have hdist := sub_emod_eq hr₀ hr hw₀ hw
  have hsum : b.capacity + b.wIndex - b.rIndex = b.wIndex - b.rIndex + b.capacity := by omega
  rw [length, sint_eq (by omega) (by omega), Int.tmod_eq_emod_of_nonneg (by omega), hsum,
    Int.add_emod_right, contents, length_slots, hdist]
  split_ifs <;> omega

/-- The oldest `n` elements are read, or all of them. -/
theorem readn_eq {n : ℕ} (hb : b.InRange) (hcap : b.capacity ≤ 2 ^ 30) :
    ∃ b', b.readn n = some (b.contents.take n, b') ∧ b'.contents = b.contents.drop n ∧
      b'.InRange := by
  obtain ⟨k, hk, hcount⟩ : ∃ k ≤ b.contents.length,
      (if b.length > n then (n : ℤ) else b.length) = k ∧ k = min n b.contents.length := by
    refine ⟨min n b.contents.length, by omega, ?_, rfl⟩
    rw [length_eq hb hcap]
    split_ifs <;> omega
  have hsplit := contents_advance hb hk
  have hlen : (slots b.data b.capacity b.rIndex k).length = k := length_slots
  have htake : b.contents.take n = b.contents.take k := by
    rw [hcount.2, List.take_eq_take_iff]
    omega
  have hdrop : b.contents.drop n = b.contents.drop k := by
    rcases Nat.le_total n b.contents.length with h | h
    · rw [hcount.2, Nat.min_eq_left h]
    · rw [List.drop_of_length_le h, List.drop_of_length_le (by omega)]
  refine ⟨{ b with rIndex := (b.rIndex + k) % b.capacity }, ?_, ?_, hb.advance⟩
  · rw [readn, hcount.1, Int.toNat_natCast,
      copyOut_eq hb.capacity_lt hb.rIndex_nonneg hb.rIndex_lt (Nat.le_refl k), htake, hsplit,
      List.take_left' hlen]
    rfl
  · rw [hdrop, hsplit, List.drop_left' hlen]

/-! ## Writing -/

theorem tdiv_ne_zero {x c : ℤ} (hc : 0 < c) (h : c ≤ x) : x.tdiv c ≠ 0 := by
  have hquot : 1 ≤ x / c := (Int.le_ediv_iff_mul_le hc).2 (by omega)
  rw [Int.tdiv_eq_ediv_of_nonneg (by omega)]
  omega

/-- For less than `2^30` elements, a buffer is taken for full unless the writer is behind the reader
    by two slots or more. -/
theorem isFull_iff (hb : b.InRange) (hcap : b.capacity < 2 ^ 30) :
    b.isFull = true ↔ b.rIndex ≤ b.wIndex + 1 := by
  obtain ⟨_, hr₀, hr, hw₀, hw⟩ := hb
  rw [isFull, bne_iff_ne, sint_eq (by omega) (by omega)]
  constructor
  · intro hne
    by_contra hlt
    exact hne (Int.tdiv_eq_zero_of_lt (by omega) (by omega))
  · intro hle
    exact tdiv_ne_zero (by omega) (by omega)

/-- How many elements are between the indices, when the writer is behind the reader by two slots or
    more. -/
theorem length_contents (hb : b.InRange) (h : b.wIndex + 1 < b.rIndex) :
    (b.contents.length : ℤ) = b.capacity + b.wIndex - b.rIndex := by
  obtain ⟨_, hr₀, hr, hw₀, hw⟩ := hb
  rw [contents, length_slots, sub_emod_eq hr₀ hr hw₀ hw, if_neg (by omega)]
  omega

/-- An element is written when the writer is behind the reader by two slots or more. -/
theorem write_eq (hb : b.InRange) (h : b.wIndex + 1 < b.rIndex) (e : T) :
    ∃ b', b.write e = (true, b') ∧ b'.InRange ∧ b'.contents = b.contents ++ [e] ∧
      b'.wIndex = b.wIndex + 1 ∧ b'.rIndex = b.rIndex ∧ b'.capacity = b.capacity := by
  have hlen := length_contents hb h
  obtain ⟨hcap, hr₀, hr, hw₀, hw⟩ := hb
  have hfull : ¬ b.isFull = true := by
    rw [isFull, bne_iff_ne, sint_eq (by omega) (by omega), not_not]
    exact Int.tdiv_eq_zero_of_lt (by omega) (by omega)
  have hnext : DemoOs.advance b.capacity b.wIndex 1 = b.wIndex + 1 := by
    rw [advance_eq hcap hw₀ (by omega) (by omega), Int.emod_eq_of_lt (by omega) (by omega)]
  have hslot : (b.rIndex + b.contents.length) % b.capacity = b.wIndex := by
    rw [hlen, show b.rIndex + (b.capacity + b.wIndex - b.rIndex) = b.wIndex + b.capacity by omega,
      Int.add_emod_right, Int.emod_eq_of_lt hw₀ hw]
  have hcount : ((b.wIndex + 1 - b.rIndex) % b.capacity).toNat = b.contents.length + 1 := by
    rw [sub_emod_eq hr₀ hr (by omega) (by omega), if_neg (by omega)]
    omega
  refine ⟨{ b with data := Function.update b.data b.wIndex e, wIndex := b.wIndex + 1 }, ?_,
    ⟨hcap, hr₀, hr, Int.add_nonneg hw₀ (by decide), Int.lt_trans h hr⟩, ?_, rfl, rfl, rfl⟩
  · rw [write, if_neg hfull, hnext]
  · rw [contents, hcount, slots_update hr₀ (by omega) hslot, contents, length_slots]

/-- A write keeps the indices in range. -/
theorem InRange.write (hb : b.InRange) (e : T) : (b.write e).2.InRange ∧
    (b.write e).2.capacity = b.capacity ∧ (b.write e).2.rIndex = b.rIndex := by
  rw [SRingBuffer.write]
  split_ifs
  · exact ⟨hb, rfl, rfl⟩
  · obtain ⟨hcap, hr₀, hr, hw₀, hw⟩ := hb
    have hnext : DemoOs.advance b.capacity b.wIndex 1 = (b.wIndex + 1) % b.capacity :=
      advance_eq hcap hw₀ (by decide) (by omega)
    refine ⟨⟨hcap, hr₀, hr, ?_, ?_⟩, rfl, rfl⟩
    · exact hnext ▸ Int.emod_nonneg _ (by omega)
    · exact hnext ▸ Int.emod_lt_of_pos _ (by omega)

/-- As many elements as there are slots before the reader, but for one, are written one after the
    other. -/
theorem writen_eq (hb : b.InRange) (es : List T) (h : b.wIndex + es.length < b.rIndex) :
    ∃ b', b.writen es = ((es.length : ℤ), b') ∧ b'.InRange ∧ b'.contents = b.contents ++ es ∧
      b'.wIndex = b.wIndex + es.length ∧ b'.rIndex = b.rIndex ∧ b'.capacity = b.capacity := by
  induction es generalizing b with
  | nil => exact ⟨b, rfl, hb, (List.append_nil _).symm, by simp, rfl, rfl⟩
  | cons e es ih =>
    rw [List.length_cons] at h
    push_cast at h
    obtain ⟨b₁, hwrite, hb₁, hcontents₁, hw₁, hr₁, hcap₁⟩ := write_eq hb (by omega) e
    obtain ⟨b', hwriten, hb', hcontents, hw, hr, hcap⟩ := ih hb₁ (by omega)
    refine ⟨b', ?_, hb', ?_, ?_, hr.trans hr₁, hcap.trans hcap₁⟩
    · rw [writen, hwrite]
      dsimp only
      rw [hwriten]
      push_cast
      rfl
    · rw [hcontents, hcontents₁, List.append_assoc]
      rfl
    · rw [hw, hw₁, List.length_cons]
      push_cast
      omega

/-- Nothing is written to a buffer taken for full. -/
theorem writen_of_isFull (hfull : b.isFull = true) (es : List T) : b.writen es = (0, b) := by
  cases es with
  | nil => rfl
  | cons e es => rw [writen, write, if_pos hfull]

theorem writes_of_isFull (hfull : b.isFull = true) (es : List T) : b.writes es = b := by
  induction es with
  | nil => rfl
  | cons e es ih =>
    have hwrite : (b.write e).2 = b := by rw [write, if_pos hfull]
    rw [writes, List.foldl_cons, hwrite]
    exact ih

theorem InRange.writes (hb : b.InRange) (es : List T) : (b.writes es).InRange ∧
    (b.writes es).capacity = b.capacity ∧ (b.writes es).rIndex = b.rIndex := by
  induction es generalizing b with
  | nil => exact ⟨hb, rfl, rfl⟩
  | cons e es ih =>
    obtain ⟨hb', hcap', hr'⟩ := hb.write e
    obtain ⟨hb'', hcap, hr⟩ := ih hb'
    exact ⟨hb'', hcap.trans hcap', hr.trans hr'⟩

/-- A writer behind the reader does not come back to where it was. -/
theorem wIndex_le_writes (hb : b.InRange) (hcap : b.capacity < 2 ^ 30) (h : b.wIndex < b.rIndex)
    (es : List T) :
    b.wIndex ≤ (b.writes es).wIndex := by
  induction es generalizing b with
  | nil => exact Int.le_refl _
  | cons e es ih =>
    by_cases hfull : b.isFull = true
    · exact Int.le_of_eq (by rw [writes_of_isFull hfull])
    · rw [isFull_iff hb hcap, Int.not_le] at hfull
      obtain ⟨b₁, hwrite, hb₁, -, hw₁, hr₁, hcap₁⟩ := write_eq hb hfull e
      have hle : b₁.wIndex ≤ (b₁.writes es).wIndex := ih hb₁ (by omega) (by omega)
      rw [writes, List.foldl_cons, hwrite]
      change b.wIndex ≤ (b₁.writes es).wIndex
      omega

/-- However the writer goes, it goes on by no more than there are elements. -/
theorem exists_wIndex_writes (hb : b.InRange) (es : List T) :
    ∃ k : ℕ, k ≤ es.length ∧ (b.writes es).wIndex = (b.wIndex + k) % b.capacity := by
  induction es generalizing b with
  | nil =>
    refine ⟨0, Nat.le_refl _, ?_⟩
    rw [Int.natCast_zero, Int.add_zero, Int.emod_eq_of_lt hb.wIndex_nonneg hb.wIndex_lt]
    rfl
  | cons e es ih =>
    by_cases hfull : b.isFull = true
    · refine ⟨0, Nat.zero_le _, ?_⟩
      rw [writes_of_isFull hfull, Int.natCast_zero, Int.add_zero,
        Int.emod_eq_of_lt hb.wIndex_nonneg hb.wIndex_lt]
    · obtain ⟨hb₁, hcap₁, -⟩ := hb.write e
      obtain ⟨k, hk, hw⟩ := ih hb₁
      have hnext : (b.write e).2.wIndex = (b.wIndex + 1) % b.capacity := by
        rw [write, if_neg hfull]
        exact advance_eq hb.capacity_lt hb.wIndex_nonneg (by decide)
          (by have := hb.wIndex_lt; omega)
      refine ⟨k + 1, by rw [List.length_cons]; omega, ?_⟩
      rw [writes, List.foldl_cons]
      change ((b.write e).2.writes es).wIndex = _
      rw [hw, hcap₁, hnext, Int.emod_add_emod]
      congr 1
      push_cast
      omega

/-- Elements offered to a buffer that is not full change it. -/
theorem writes_ne (hb : b.InRange) (hfull : b.isFull = false) {es : List T} (hes : es ≠ [])
    (hlen : es.length < 2 ^ 30) : b.writes es ≠ b := by
  cases es with
  | nil => exact absurd rfl hes
  | cons e es =>
    intro heq
    have hw : ((b.write e).2.writes es).wIndex = b.wIndex := congrArg SRingBuffer.wIndex heq
    obtain ⟨hb₁, hcap₁, hr₁⟩ := hb.write e
    by_cases hcap : b.capacity < 2 ^ 30
    · rw [Bool.eq_false_iff, Ne, isFull_iff hb hcap, Int.not_le] at hfull
      obtain ⟨b₁, hwrite, -, -, hw₁, -, -⟩ := write_eq hb hfull e
      have hnext : (b.write e).2.wIndex = b.wIndex + 1 := by rw [hwrite, hw₁]
      have hle := wIndex_le_writes hb₁ (by omega) (by omega) es
      omega
    · have hw₀ := hb.wIndex_nonneg
      have hlt := hb.wIndex_lt
      rw [List.length_cons] at hlen
      obtain ⟨k, hk, hw'⟩ := exists_wIndex_writes hb₁ es
      have hnext : (b.write e).2.wIndex = (b.wIndex + 1) % b.capacity := by
        rw [write, if_neg (ne_true_of_eq_false hfull)]
        exact advance_eq hb.capacity_lt hw₀ (by decide) (by omega)
      rw [hw, hcap₁, hnext, Int.emod_add_emod] at hw'
      -- The writer would have to go around.
      have hdiv : b.capacity ∣ b.wIndex + 1 + k - b.wIndex := Int.dvd_self_sub_of_emod_eq hw'.symm
      have hle := Int.le_of_dvd (by omega) hdiv
      omega

/-- For up to `2^30` elements, an empty buffer claims to have no free space, and any other one slot
    more than may be written. -/
theorem freeSpace_eq (hb : b.InRange) (hcap : b.capacity ≤ 2 ^ 30) :
    b.freeSpace = if b.contents.length = 0 then 0 else b.capacity - b.contents.length := by
  have hdist := sub_emod_eq hb.wIndex_nonneg hb.wIndex_lt hb.rIndex_nonneg hb.rIndex_lt
  have hback := sub_emod_eq hb.rIndex_nonneg hb.rIndex_lt hb.wIndex_nonneg hb.wIndex_lt
  have hsum : b.capacity + b.rIndex - b.wIndex = b.rIndex - b.wIndex + b.capacity := by omega
  obtain ⟨_, hr₀, hr, hw₀, hw⟩ := hb
  rw [freeSpace, sint_eq (by omega) (by omega), Int.tmod_eq_emod_of_nonneg (by omega), hsum,
    Int.add_emod_right, hdist, contents, length_slots, hback]
  split_ifs <;> omega

/-- Nothing has been written yet, or ever will. -/
structure Fresh (b : SRingBuffer T) : Prop where
  capacity_pos : 0 < b.capacity
  capacity_lt : b.capacity < 2 ^ 31
  rIndex : b.rIndex = 0
  wIndex : b.wIndex = 0

theorem fresh_init {c : ℤ} {data : ℤ → T} (hc : c < 2 ^ 31) (h : init c data = some b) :
    b.Fresh ∧ b.capacity = c := by
  unfold init at h
  split_ifs at h with hpos
  obtain rfl := Option.some.inj h
  exact ⟨⟨hpos, hc, rfl, rfl⟩, rfl⟩

section

variable (hb : b.Fresh)
include hb

theorem Fresh.isEmpty : b.isEmpty = true := by
  rw [SRingBuffer.isEmpty, hb.rIndex, hb.wIndex]
  rfl

theorem Fresh.length : b.length = 0 := by
  have := hb.capacity_pos
  have := hb.capacity_lt
  rw [SRingBuffer.length, hb.rIndex, hb.wIndex, sint_eq (by omega) (by omega)]
  simp

/-- A fresh buffer is taken for full. -/
theorem Fresh.isFull : b.isFull = true := by
  obtain ⟨hpos, hlt, hr, hw⟩ := hb
  rw [SRingBuffer.isFull, hr, hw, bne_iff_ne]
  by_cases hmax : b.capacity = 2 ^ 31 - 1
  · -- The sum is one more than the largest `sint`, and the quotient negative.
    rw [hmax]
    decide
  · rw [sint_eq (by omega) (by omega)]
    exact tdiv_ne_zero hpos (by omega)

theorem Fresh.reset : b.reset = b := by
  obtain ⟨_, _, hr, hw⟩ := hb
  cases b
  simp_all [SRingBuffer.reset]

/-- Whatever is done with a fresh buffer, it stays so, and replies as a queue of no element
    would. -/
theorem Fresh.call (op : RingOp T) : b.call op = some ((RingOp.onQueue 0 [] op).1, b) := by
  cases op with
  | write e => simp [SRingBuffer.call, write, hb.isFull, RingOp.onQueue, BoundedQueue.put]
  | writen es =>
    cases es with
    | nil => simp [SRingBuffer.call, writen, RingOp.onQueue, BoundedQueue.put]
    | cons e es =>
        simp [SRingBuffer.call, writen, write, hb.isFull, RingOp.onQueue, BoundedQueue.put]
  | read => simp [SRingBuffer.call, read, hb.isEmpty, RingOp.onQueue]
  | readn n =>
    have hcount : (if 0 > (n : ℤ) then (n : ℤ) else 0) = 0 := by
      split_ifs <;> omega
    simp only [SRingBuffer.call, readn, hb.length, hcount, RingOp.onQueue]
    simp [copyOut]
  | reset => simp [SRingBuffer.call, hb.reset, RingOp.onQueue]

end

/-! ## As a queue -/

/-- What the observers of a buffer say is of a queue of `capacity - 1` elements holding `q`. -/
structure Shows (b : SRingBuffer T) (q : List T) : Prop where
  length : b.length = q.length
  isEmpty : b.isEmpty = true ↔ b.length = 0
  isFull : b.isFull = true ↔ b.length = b.capacity - 1
  freeSpace : b.length + b.freeSpace = b.capacity - 1

/-- From the queue `q` on, the buffer replies to the calls as the queue does, and shows the queue
    before and after each of them. -/
def Behaves (b : SRingBuffer T) (q : List T) : List (RingOp T) → Prop
  | [] => b.Shows q
  | op :: ops => b.Shows q ∧ ∃ b', b.call op = some ((op.onQueue (b.capacity - 1).toNat q).1, b') ∧
      b'.Behaves (op.onQueue (b.capacity - 1).toNat q).2 ops

/-- A fresh buffer shows no queue, as it is empty and full. -/
theorem Fresh.not_shows {q : List T} (hb : b.Fresh) (hc : 2 ≤ b.capacity) : ¬ b.Shows q := by
  intro h
  have hlen := h.isFull.1 hb.isFull
  rw [hb.length] at hlen
  omega

/-- A buffer just initialised replies to no sequence of calls as the queue does. -/
theorem not_behaves {c : ℤ} {data : ℤ → T} (hc : 2 ≤ c) (hc' : c < 2 ^ 31)
    (h : init c data = some b) (ops : List (RingOp T)) : ¬ b.Behaves [] ops := by
  obtain ⟨hb, hcap⟩ := fresh_init hc' h
  have hshows : ¬ b.Shows [] := hb.not_shows (by omega)
  cases ops with
  | nil => exact hshows
  | cons op ops => exact fun hbehaves => hshows hbehaves.1

theorem not_behaves_four : ¬ (⟨0, 0, 4, fun _ => 0⟩ : SRingBuffer UInt8).Behaves [] [.write 7] :=
  not_behaves (c := 4) (by decide) (by decide) rfl _

/-- Writing to an empty buffer of four slots is refused. -/
theorem fresh_write_refused : ∃ b : SRingBuffer UInt8, init 4 (fun _ => 0) = some b ∧
    b.isEmpty = true ∧ b.isFull = true ∧ (b.write 7).1 = false ∧ b.length + b.freeSpace = 0 ∧
      ¬ b.Behaves [] [.write 7] :=
  ⟨_, rfl, by decide, by decide, by decide, by decide,
    fun h => absurd (h.1.isFull.1 (by decide)) (by decide)⟩

end SRingBuffer

end DemoOs
