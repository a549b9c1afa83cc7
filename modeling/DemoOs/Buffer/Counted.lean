import DemoOs.Buffer.Serial

/-!
# The counted ring buffer

`CRingBuffer` (`ringbuffer.h`) keeps a count beside its two indices, and is a queue of `capacity`
elements: if it is full, an element written is refused (`RBF_DEFAULT`), or the oldest one is dropped
for it (`RBF_OVERWRITE`). The elements come from the heap as bytes; the model is generic in them.

Any number of buffers are used together, `move` taking elements from one to another. They behave as
a family of bounded queues does (`QueueFamily`), whatever the capacities and flags and whatever is
called (`refines`). One call is `Holds.write`, `Holds.writen`, `Holds.read`, `Holds.readn` or
`Holds.move`.
-/

namespace DemoOs

variable {ι T : Type*}

inductive RingBufferFlag
  | RBF_DEFAULT
  | RBF_OVERWRITE
  deriving DecidableEq

/-- The fields of a buffer whose `init` has got the block `data` from the heap. -/
structure CRingBuffer (T : Type*) where
  rIndex : ℤ
  wIndex : ℤ
  count : ℤ
  capacity : ℤ
  flag : RingBufferFlag
  data : ℤ → T

namespace CRingBuffer

variable (b : CRingBuffer T)

/-- `init` asserts that the size is positive. -/
def init (bufSize : ℤ) (rbf : RingBufferFlag) (data : ℤ → T) : Option (CRingBuffer T) :=
  if 0 < bufSize then some ⟨0, 0, 0, bufSize, rbf, data⟩ else none

def length : ℤ := b.count

def freeSpace : ℤ := b.capacity - b.count

def isFull : Bool := b.count ≥ b.capacity

def isEmpty : Bool := b.count == 0

def write (d : T) : Bool × CRingBuffer T :=
  let maxReaded := b.isFull
  if b.flag = .RBF_DEFAULT ∧ maxReaded = true then (false, b)
  else
    let b' := { b with
      data := Function.update b.data b.wIndex d
      wIndex := advance b.capacity b.wIndex 1 }
    if b.flag = .RBF_OVERWRITE ∧ maxReaded = true then
      (true, { b' with rIndex := advance b.capacity b.rIndex 1 })
    else (true, { b' with count := b.count + 1 })

/-- Writing the elements in turn, until one is refused. -/
def writen (b : CRingBuffer T) : List T → ℤ × CRingBuffer T
  | [] => (0, b)
  | e :: es =>
    match b.write e with
    | (true, b') => ((writen b' es).1 + 1, (writen b' es).2)
    | (false, _) => (0, b)

def read : Option T × CRingBuffer T :=
  if b.isEmpty then (none, b)
  else (some (b.data b.rIndex),
    { b with rIndex := advance b.capacity b.rIndex 1, count := b.count - 1 })

def readn (n : ℤ) : Option (List T × CRingBuffer T) :=
  let count := if n > b.count then b.count else n
  (copyOut b.data b.capacity count.toNat b.rIndex count).map
    fun (es, rIndex) => (es, { b with rIndex, count := b.count - count })

/-- The loop of `move`: chunks up to the end of the block of the source, each of them written as far
    as it is accepted. It ends within as many turns as there are elements to move, if every turn
    moves one. -/
def moveLoop : ℕ → CRingBuffer T → CRingBuffer T → ℤ → Option (CRingBuffer T × CRingBuffer T)
  | 0, b, src, count => if 0 < count then none else some (b, src)
  | fuel + 1, b, src, count =>
    if 0 < count then
      let sc := min (src.capacity - src.rIndex) count
      let (sc, b') := b.writen (chunk src.data src.rIndex sc)
      moveLoop fuel b' { src with
        count := src.count - sc
        rIndex := advance src.capacity src.rIndex sc } (count - sc)
    else some (b, src)

/-- Returned are the number of elements, the buffer and the source. -/
def move (src : CRingBuffer T) (n : ℤ) : Option (ℤ × CRingBuffer T × CRingBuffer T) :=
  let count := if b.flag = .RBF_DEFAULT then min n (b.capacity - b.count) else n
  let count := min count src.count
  (moveLoop count.toNat b src count).map fun (b', src') => (count, b', src')

end CRingBuffer

/-- The calls on a family of buffers. -/
inductive RingCall (ι T : Type*)
  | write (i : ι) (d : T)
  | writen (i : ι) (es : List T)
  | read (i : ι)
  | readn (i : ι) (n : ℕ)
  | move (i src : ι) (n : ℕ)

/-- What a call on a family of buffers returns, and makes of it. Moving from a buffer to itself,
    which reads the fields it writes, is left out. -/
def CRingBuffer.call [DecidableEq ι] (bs : ι → CRingBuffer T) :
    RingCall ι T → Option (RingReply T × (ι → CRingBuffer T))
  | .write i d => some (.written ((bs i).write d).1, Function.update bs i ((bs i).write d).2)
  | .writen i es => some (.count ((bs i).writen es).1, Function.update bs i ((bs i).writen es).2)
  | .read i => some (.element (bs i).read.1, Function.update bs i (bs i).read.2)
  | .readn i n => ((bs i).readn n).map fun (es, b') => (.elements es, Function.update bs i b')
  | .move i src n =>
    if i = src then none
    else ((bs i).move (bs src) n).map fun (k, b', src') =>
      (.count k, Function.update (Function.update bs i b') src src')

/-! ## Families of queues -/

/-- How many elements each queue holds at most, and what is done with those that do not fit. -/
structure QueueFamily (ι : Type*) where
  cap : ι → ℕ
  flag : ι → RingBufferFlag

namespace RingBufferFlag

/-- A queue of up to `c` elements after elements have been put. -/
def accept (f : RingBufferFlag) (c : ℕ) (q es : List T) : List T :=
  match f with
  | .RBF_DEFAULT => BoundedQueue.put c q es
  | .RBF_OVERWRITE => BoundedQueue.force c q es

/-- How many of `n` elements are put. -/
def accepts (f : RingBufferFlag) (c : ℕ) (q : List T) (n : ℕ) : ℕ :=
  match f with
  | .RBF_DEFAULT => min n (c - q.length)
  | .RBF_OVERWRITE => n

end RingBufferFlag

/-- What a call on a family of queues returns, and makes of it. -/
def QueueFamily.call [DecidableEq ι] (F : QueueFamily ι) (qs : ι → List T) :
    RingCall ι T → RingReply T × (ι → List T)
  | .write i d => (.written ((F.flag i).accepts (F.cap i) (qs i) 1 = 1),
      Function.update qs i ((F.flag i).accept (F.cap i) (qs i) [d]))
  | .writen i es => (.count ((F.flag i).accepts (F.cap i) (qs i) es.length),
      Function.update qs i ((F.flag i).accept (F.cap i) (qs i) es))
  | .read i => (.element (qs i).head?, Function.update qs i (qs i).tail)
  | .readn i n => (.elements ((qs i).take n), Function.update qs i ((qs i).drop n))
  | .move i src n =>
    let k := min ((F.flag i).accepts (F.cap i) (qs i) n) (qs src).length
    (.count k, Function.update
      (Function.update qs i ((F.flag i).accept (F.cap i) (qs i) ((qs src).take k)))
      src ((qs src).drop k))

namespace RingBufferFlag

variable {f : RingBufferFlag} {c n : ℕ} {q es es' : List T}

@[simp] theorem accept_nil (hq : q.length ≤ c) : f.accept c q [] = q := by
  cases f with
  | RBF_DEFAULT => exact BoundedQueue.put_nil
  | RBF_OVERWRITE => exact BoundedQueue.force_nil hq

theorem accept_append (hq : q.length ≤ c) :
    f.accept c q (es ++ es') = f.accept c (f.accept c q es) es' := by
  cases f with
  | RBF_DEFAULT => exact BoundedQueue.put_append hq
  | RBF_OVERWRITE => exact BoundedQueue.force_append

/-- Elements for which there is room are put behind the others. -/
theorem accept_of_fits (h : q.length + es.length ≤ c) : f.accept c q es = q ++ es := by
  cases f with
  | RBF_DEFAULT => exact BoundedQueue.put_of_fits h
  | RBF_OVERWRITE => exact BoundedQueue.force_of_fits h

theorem accepts_of_fits (h : q.length + n ≤ c) : f.accepts c q n = n := by
  cases f with
  | RBF_DEFAULT => exact Nat.min_eq_left (by omega)
  | RBF_OVERWRITE => rfl

theorem accepts_le : f.accepts c q n ≤ n := by
  cases f with
  | RBF_DEFAULT => exact Nat.min_le_left ..
  | RBF_OVERWRITE => exact Nat.le_refl n

/-- As many elements as are put of more are all put. -/
theorem accepts_of_le {k : ℕ} (h : k ≤ f.accepts c q n) : f.accepts c q k = k := by
  cases f with
  | RBF_DEFAULT =>
    simp only [accepts] at h ⊢
    omega
  | RBF_OVERWRITE => rfl

/-- If one element is put, the others find the queue with it. -/
theorem accepts_succ {e : T} (h : f.accepts c q 1 = 1) :
    f.accepts c (f.accept c q [e]) n + 1 = f.accepts c q (n + 1) := by
  cases f with
  | RBF_DEFAULT =>
    simp only [accepts] at h ⊢
    rw [accept, BoundedQueue.put_of_fits (by simp; omega), List.length_append,
      List.length_singleton]
    omega
  | RBF_OVERWRITE => rfl

/-- If elements are all put, the first of them are, and then the others. -/
theorem accepts_add {m : ℕ} (h : f.accepts c q (es.length + m) = es.length + m) :
    f.accepts c q es.length = es.length ∧ f.accepts c (f.accept c q es) m = m := by
  cases f with
  | RBF_DEFAULT =>
    simp only [accepts] at h ⊢
    by_cases hes : es.length = 0
    · obtain rfl := List.length_eq_zero_iff.1 hes
      simp only [List.length_nil] at h ⊢
      rw [accept, BoundedQueue.put_nil]
      omega
    · rw [accept, BoundedQueue.put_of_fits (by omega), List.length_append]
      omega
  | RBF_OVERWRITE => exact ⟨rfl, rfl⟩

/-- If one element is refused, all are. -/
theorem refused (h : f.accepts c q 1 ≠ 1) : f.accepts c q n = 0 ∧ f.accept c q es = q := by
  cases f with
  | RBF_DEFAULT =>
    simp only [accepts] at h ⊢
    have hfull : c - q.length = 0 := by omega
    exact ⟨by omega, by simp [accept, BoundedQueue.put, hfull]⟩
  | RBF_OVERWRITE => exact absurd rfl h

end RingBufferFlag

/-! ## A buffer holding a queue -/

namespace CRingBuffer

/-- The buffer, of `c` elements and with the flag `f`, holds the queue `q`. -/
structure Holds (c : ℕ) (f : RingBufferFlag) (b : CRingBuffer T) (q : List T) : Prop where
  capacity : b.capacity = c
  capacity_lt : c < 2 ^ 31
  flag : b.flag = f
  rIndex_nonneg : 0 ≤ b.rIndex
  rIndex_lt : b.rIndex < c
  wIndex : (b.rIndex + b.count) % c = b.wIndex
  count : b.count = q.length
  count_le : q.length ≤ c
  content : slots b.data c b.rIndex q.length = q

variable {c k : ℕ} {f : RingBufferFlag} {b : CRingBuffer T} {q es : List T} {d : T}

theorem holds_init {data : ℤ → T} (hc : c < 2 ^ 31) (h : init c f data = some b) :
    Holds c f b [] := by
  unfold init at h
  split_ifs at h with hpos
  obtain rfl := Option.some.inj h
  exact ⟨rfl, hc, rfl, by simp, hpos, by simp, rfl, by simp, rfl⟩

theorem Holds.isFull_iff (h : Holds c f b q) : b.isFull = true ↔ q.length = c := by
  have := h.count
  have := h.capacity
  have := h.count_le
  rw [isFull, decide_eq_true_eq]
  omega

/-- The slots from the reader on, split after `k` elements. -/
theorem Holds.slots_split (h : Holds c f b q) (hk : k ≤ q.length) :
    slots b.data c b.rIndex k = q.take k ∧
      slots b.data c ((b.rIndex + k) % c) (q.length - k) = q.drop k := by
  have := h.rIndex_nonneg
  have := h.rIndex_lt
  obtain ⟨m, hm⟩ := Nat.exists_eq_add_of_le hk
  have hslots := h.content
  rw [hm, slots_append (by omega) h.rIndex_nonneg] at hslots
  rw [hm, Nat.add_sub_cancel_left, ← hslots]
  exact ⟨(List.take_left' length_slots).symm, (List.drop_left' length_slots).symm⟩

/-- The reader going on over `k` elements. -/
theorem Holds.advance (h : Holds c f b q) (hk : k ≤ q.length) :
    Holds c f { b with rIndex := (b.rIndex + k) % c, count := b.count - k } (q.drop k) where
  capacity := h.capacity
  capacity_lt := h.capacity_lt
  flag := h.flag
  rIndex_nonneg := Int.emod_nonneg _ (by have := h.rIndex_nonneg; have := h.rIndex_lt; omega)
  rIndex_lt := Int.emod_lt_of_pos _ (by have := h.rIndex_nonneg; have := h.rIndex_lt; omega)
  wIndex := by
    rw [← h.wIndex, Int.emod_add_emod]
    congr 1
    dsimp only
    omega
  count := by
    rw [List.length_drop, Int.ofNat_sub hk, ← h.count]
  count_le := by
    have := h.count_le
    rw [List.length_drop]
    omega
  content := by
    rw [List.length_drop]
    exact (h.slots_split hk).2

/-! ### Writing -/

/-- An element put into the slot after the last. -/
theorem Holds.store (h : Holds c f b q) (hroom : q.length < c) :
    Holds c f { b with
      data := Function.update b.data b.wIndex d
      wIndex := DemoOs.advance b.capacity b.wIndex 1
      count := b.count + 1 } (q ++ [d]) := by
  have hcap := h.capacity
  have hlt := h.capacity_lt
  have hcount := h.count
  have hw₀ : 0 ≤ b.wIndex := by
    rw [← h.wIndex]
    exact Int.emod_nonneg _ (by omega)
  have hw : b.wIndex < c := by
    rw [← h.wIndex]
    exact Int.emod_lt_of_pos _ (by omega)
  -- The write index is behind the entries that are in the buffer.
  have hslot : (b.rIndex + q.length) % c = b.wIndex := by rw [← hcount, h.wIndex]
  refine { h with wIndex := ?wIndex, count := ?count, count_le := ?count_le, content := ?content }
  case wIndex =>
    dsimp only
    rw [hcap, advance_eq (by omega) hw₀ (by omega) (by omega), ← h.wIndex, Int.emod_add_emod,
      Int.add_assoc]
  case count =>
    dsimp only
    rw [List.length_append, List.length_singleton]
    omega
  case count_le =>
    rw [List.length_append, List.length_singleton]
    omega
  case content =>
    rw [List.length_append, List.length_singleton,
      slots_update h.rIndex_nonneg (by omega) hslot, h.content]

theorem Holds.write (h : Holds c f b q) (hc : 0 < c) :
    (b.write d).1 = decide (f.accepts c q 1 = 1) ∧
      Holds c f (b.write d).2 (f.accept c q [d]) := by
  have hflag := h.flag
  have hcap := h.capacity
  have hlt := h.capacity_lt
  have hle := h.count_le
  by_cases hfull : q.length = c
  · have hisFull := h.isFull_iff.2 hfull
    cases f with
    | RBF_DEFAULT =>
      have hw : b.write d = (false, b) := if_pos ⟨hflag, hisFull⟩
      rw [hw, RingBufferFlag.accept, RingBufferFlag.accepts, BoundedQueue.put_of_full hfull, hfull]
      exact ⟨by simp, h⟩
    | RBF_OVERWRITE =>
      have hnext := advance_eq (c := c) (by omega) h.rIndex_nonneg (by omega : (0 : ℤ) ≤ 1)
        (by have := h.rIndex_lt; omega)
      -- The oldest element makes room for the new one.
      have hroom : (q.drop 1).length < c := by
        rw [List.length_drop]
        omega
      have hstore := (h.advance (k := 1) (by omega)).store (d := d) hroom
      rw [CRingBuffer.write, if_neg (by simp [hflag]), if_pos ⟨hflag, hisFull⟩]
      rw [RingBufferFlag.accept, BoundedQueue.force_of_full hfull hc, ← List.drop_one]
      refine ⟨rfl, ?_⟩
      simpa [hcap, hnext] using hstore
  · have hisFull : ¬ b.isFull = true := fun hb => hfull (h.isFull_iff.1 hb)
    have hfits : q.length + 1 ≤ c := by omega
    rw [CRingBuffer.write, if_neg fun hb => hisFull hb.2, if_neg fun hb => hisFull hb.2,
      RingBufferFlag.accept_of_fits hfits, RingBufferFlag.accepts_of_fits hfits]
    exact ⟨rfl, h.store (by omega)⟩

theorem Holds.writen (h : Holds c f b q) (hc : 0 < c) (es : List T) :
    (b.writen es).1 = (f.accepts c q es.length : ℕ) ∧
      Holds c f (b.writen es).2 (f.accept c q es) := by
  induction es generalizing b q with
  | nil =>
    have hnone : f.accepts c q 0 = 0 := Nat.le_zero.1 RingBufferFlag.accepts_le
    rw [RingBufferFlag.accept_nil h.count_le, List.length_nil, hnone]
    exact ⟨rfl, h⟩
  | cons e es ih =>
    obtain ⟨hreply, hwrite⟩ := h.write hc (d := e)
    have hstep : f.accept c q ([e] ++ es) = f.accept c (f.accept c q [e]) es :=
      RingBufferFlag.accept_append h.count_le
    rw [List.singleton_append] at hstep
    by_cases hone : f.accepts c q 1 = 1
    · have hpair : b.write e = (true, (b.write e).2) :=
        Prod.ext (hreply.trans (decide_eq_true hone)) rfl
      obtain ⟨hrest, hholds⟩ := ih hwrite
      rw [CRingBuffer.writen, hpair, hstep, List.length_cons, ← RingBufferFlag.accepts_succ hone]
      exact ⟨congrArg (· + 1) hrest, hholds⟩
    · have hpair : b.write e = (false, (b.write e).2) :=
        Prod.ext (hreply.trans (decide_eq_false hone)) rfl
      obtain ⟨hnone, hsame⟩ : f.accepts c q (e :: es).length = 0 ∧ f.accept c q (e :: es) = q :=
        RingBufferFlag.refused hone
      rw [CRingBuffer.writen, hpair, hnone, hsame]
      exact ⟨rfl, h⟩

/-! ### Reading -/

theorem Holds.read (h : Holds c f b q) :
    b.read.1 = q.head? ∧ Holds c f b.read.2 q.tail := by
  have hlt := h.capacity_lt
  have hcount := h.count
  cases q with
  | nil =>
    have hempty : b.isEmpty = true := by simp [isEmpty, hcount]
    rw [CRingBuffer.read, if_pos hempty]
    exact ⟨rfl, h⟩
  | cons e q =>
    have hempty : ¬ b.isEmpty = true := by
      simp [isEmpty, hcount]
      omega
    have hnext := advance_eq (c := c) (by omega) h.rIndex_nonneg (by omega : (0 : ℤ) ≤ 1)
      (by have := h.rIndex_lt; omega)
    have hslots := h.content
    rw [List.length_cons, slots_cons h.rIndex_nonneg h.rIndex_lt] at hslots
    have hadv := h.advance (k := 1) (by simp)
    rw [CRingBuffer.read, if_neg hempty, h.capacity, hnext]
    exact ⟨congrArg some (List.cons.inj hslots).1, by simpa [h.capacity] using hadv⟩

/-- The oldest `n` elements are read, or all of them. -/
theorem Holds.readn (h : Holds c f b q) (n : ℕ) :
    ∃ b', b.readn n = some (q.take n, b') ∧ Holds c f b' (q.drop n) := by
  have hlt := h.capacity_lt
  have hcount := h.count
  have hif : (if (n : ℤ) > b.count then b.count else (n : ℤ)) = (min n q.length : ℕ) := by
    split_ifs <;> omega
  have hcopy : copyOut b.data c (min n q.length) b.rIndex (min n q.length : ℕ) = _ :=
    copyOut_eq (by omega) h.rIndex_nonneg h.rIndex_lt (Nat.le_refl (min n q.length))
  have htake := (h.slots_split (Nat.min_le_right n q.length)).1
  have hdrop : q.drop n = q.drop (min n q.length) := by
    rcases Nat.le_total n q.length with hn | hn
    · rw [Nat.min_eq_left hn]
    · rw [Nat.min_eq_right hn, List.drop_of_length_le hn, List.drop_length]
  refine ⟨_, ?_, hdrop ▸ h.advance (Nat.min_le_right n q.length)⟩
  simp only [CRingBuffer.readn]
  rw [hif, Int.toNat_natCast, h.capacity, hcopy, htake, ← List.take_eq_take_min]
  rfl

/-! ### Moving -/

/-- The loop of `move` takes the `n` oldest elements of the source, if all of them are put. -/
theorem moveLoop_eq {c' : ℕ} {f' : RingBufferFlag} {src : CRingBuffer T} {q' : List T} {fuel n : ℕ}
    (h : Holds c f b q) (h' : Holds c' f' src q') (hc : 0 < c) (hfuel : n ≤ fuel)
    (hn : n ≤ q'.length) (hfits : f.accepts c q n = n) :
    ∃ b' src', moveLoop fuel b src n = some (b', src') ∧ Holds c f b' (f.accept c q (q'.take n)) ∧
      Holds c' f' src' (q'.drop n) := by
  induction fuel generalizing b src q q' n with
  | zero =>
    obtain rfl : n = 0 := by omega
    exact ⟨b, src, rfl, by simpa [h.count_le] using h, by simpa using h'⟩
  | succ fuel ih =>
    rw [moveLoop]
    split_ifs with hpos
    · have hr := h'.rIndex_lt
      have hr₀ := h'.rIndex_nonneg
      have hlt := h'.capacity_lt
      obtain ⟨k, hk⟩ : ∃ k : ℕ, min (src.capacity - src.rIndex) n = k :=
        ⟨(min (src.capacity - src.rIndex) n).toNat, by have := h'.capacity; omega⟩
      rw [h'.capacity] at hk ⊢
      obtain ⟨m, rfl⟩ : ∃ m, n = k + m := ⟨n - k, by omega⟩
      have hchunk : chunk src.data src.rIndex k = q'.take k := by
        rw [chunk_eq (c := c') hr₀ (by omega), (h'.slots_split (by omega)).1]
      have hlen : (q'.take k).length = k := List.length_take_of_le (by omega)
      -- The elements of a chunk are all put, and so are those after it.
      have hall : f.accepts c q ((q'.take k).length + m) = (q'.take k).length + m := by rwa [hlen]
      obtain ⟨hfirst, hrest⟩ := RingBufferFlag.accepts_add hall
      obtain ⟨hcount, hholds⟩ := h.writen hc (q'.take k)
      rw [hfirst, hlen] at hcount
      have hadv : DemoOs.advance c' src.rIndex k = (src.rIndex + k) % c' :=
        advance_eq (by omega) hr₀ (by omega) (by omega)
      obtain ⟨b', src', hloop, hb', hsrc'⟩ :=
        ih hholds (h'.advance (k := k) (by omega)) (n := m) (by omega)
          (by rw [List.length_drop]; omega) hrest
      have hleft : ((k + m : ℕ) : ℤ) - k = (m : ℕ) := by omega
      refine ⟨b', src', ?_, ?_, ?_⟩
      · dsimp only
        rw [hk, hchunk, hcount, hadv, hleft, ← hloop, h'.capacity]
      · rwa [List.take_add, RingBufferFlag.accept_append h.count_le]
      · rwa [← List.drop_drop]
    · obtain rfl : n = 0 := by omega
      exact ⟨b, src, rfl, by simpa [h.count_le] using h, by simpa using h'⟩

theorem Holds.move {c' : ℕ} {f' : RingBufferFlag} {src : CRingBuffer T} {q' : List T}
    (h : Holds c f b q) (h' : Holds c' f' src q') (hc : 0 < c) (n : ℕ) :
    let k := min (f.accepts c q n) q'.length
    ∃ b' src', b.move src n = some ((k : ℤ), b', src') ∧ Holds c f b' (f.accept c q (q'.take k)) ∧
      Holds c' f' src' (q'.drop k) := by
  intro k
  have hcap := h.capacity
  have hcount := h.count
  have hle := h.count_le
  have hflag := h.flag
  have hcount' := h'.count
  have hk : min (if b.flag = .RBF_DEFAULT then min (n : ℤ) (b.capacity - b.count) else n)
      src.count = k := by
    rw [hflag, hcap, hcount, hcount']
    cases f with
    | RBF_DEFAULT =>
      simp only [k, RingBufferFlag.accepts, if_true]
      omega
    | RBF_OVERWRITE =>
      simp only [k, RingBufferFlag.accepts, reduceCtorEq, if_false]
      omega
  have hfits : f.accepts c q k = k := RingBufferFlag.accepts_of_le (n := n) (Nat.min_le_left ..)
  obtain ⟨b', src', hloop, hb', hsrc'⟩ :=
    moveLoop_eq h h' hc (Nat.le_refl k) (Nat.min_le_right ..) hfits
  refine ⟨b', src', ?_, hb', hsrc'⟩
  simp only [CRingBuffer.move]
  rw [hk, Int.toNat_natCast, hloop]
  rfl

/-! ## Families of buffers -/

/-- The indices are of the block, and the count is the distance between them. -/
structure InBounds (b : CRingBuffer T) : Prop where
  rIndex : 0 ≤ b.rIndex ∧ b.rIndex < b.capacity
  wIndex : 0 ≤ b.wIndex ∧ b.wIndex < b.capacity
  count : 0 ≤ b.count ∧ b.count ≤ b.capacity
  congr : b.wIndex % b.capacity = (b.rIndex + b.count) % b.capacity

theorem Holds.inBounds (h : Holds c f b q) : b.InBounds := by
  have hr₀ := h.rIndex_nonneg
  have hr := h.rIndex_lt
  have hcount := h.count
  have hle := h.count_le
  have hw := h.wIndex
  have hw₀ := Int.emod_nonneg (b.rIndex + b.count) (by omega : (c : ℤ) ≠ 0)
  have hwc := Int.emod_lt_of_pos (b.rIndex + b.count) (by omega : (0 : ℤ) < c)
  constructor
  case congr => rw [h.capacity, ← hw, Int.emod_emod]
  all_goals
    rw [h.capacity]
    omega

variable [DecidableEq ι] {F : QueueFamily ι} {bs : ι → CRingBuffer T} {qs : ι → List T}

/-- The replies to a list of calls, and the buffers after them. -/
def calls (bs : ι → CRingBuffer T) :
    List (RingCall ι T) → Option (List (RingReply T) × (ι → CRingBuffer T))
  | [] => some ([], bs)
  | op :: ops =>
    (call bs op).bind fun (reply, bs') =>
      (calls bs' ops).map fun (replies, bs'') => (reply :: replies, bs'')

end CRingBuffer

/-- The replies to a list of calls, and the queues after them. -/
def QueueFamily.calls [DecidableEq ι] (F : QueueFamily ι) (qs : ι → List T) :
    List (RingCall ι T) → List (RingReply T) × (ι → List T)
  | [] => ([], qs)
  | op :: ops =>
    let (reply, qs') := F.call qs op
    let (replies, qs'') := F.calls qs' ops
    (reply :: replies, qs'')

/-- Elements are moved between different buffers. -/
def RingCall.Distinct : RingCall ι T → Prop
  | .move i src _ => i ≠ src
  | _ => True

namespace CRingBuffer

variable [DecidableEq ι] {F : QueueFamily ι} {bs : ι → CRingBuffer T} {qs : ι → List T}

/-- Each of the buffers holds the queue of its index. -/
def HoldAll (F : QueueFamily ι) (bs : ι → CRingBuffer T) (qs : ι → List T) : Prop :=
  ∀ i, Holds (F.cap i) (F.flag i) (bs i) (qs i)

theorem HoldAll.update {i : ι} (h : HoldAll F bs qs) (hb : Holds (F.cap i) (F.flag i) b q) :
    HoldAll F (Function.update bs i b) (Function.update qs i q) := by
  intro j
  by_cases hj : j = i
  · subst hj
    simpa using hb
  · simpa [hj] using h j

/-- A call on the buffers is a call on the queues they hold. -/
theorem HoldAll.call (h : HoldAll F bs qs) (hpos : ∀ i, 0 < F.cap i) {op : RingCall ι T}
    (hop : op.Distinct) :
    ∃ bs', call bs op = some ((F.call qs op).1, bs') ∧ HoldAll F bs' (F.call qs op).2 := by
  cases op with
  | write i d =>
    obtain ⟨hreply, hholds⟩ := (h i).write (hpos i) (d := d)
    exact ⟨_, by rw [CRingBuffer.call, hreply]; rfl, h.update hholds⟩
  | writen i es =>
    obtain ⟨hreply, hholds⟩ := (h i).writen (hpos i) es
    exact ⟨_, by rw [CRingBuffer.call, hreply]; rfl, h.update hholds⟩
  | read i =>
    obtain ⟨hreply, hholds⟩ := (h i).read
    exact ⟨_, by rw [CRingBuffer.call, hreply]; rfl, h.update hholds⟩
  | readn i n =>
    obtain ⟨b', hreadn, hholds⟩ := (h i).readn n
    exact ⟨_, by rw [CRingBuffer.call, hreadn]; rfl, h.update hholds⟩
  | move i src n =>
    obtain ⟨b', src', hmove, hb', hsrc'⟩ := (h i).move (h src) (hpos i) n
    exact ⟨_, by rw [CRingBuffer.call, if_neg hop, hmove]; rfl, (h.update hb').update hsrc'⟩

/-- The buffers behave as the queues they hold, for any sequence of calls. -/
theorem HoldAll.calls (h : HoldAll F bs qs) (hpos : ∀ i, 0 < F.cap i) {ops : List (RingCall ι T)}
    (hops : ∀ op ∈ ops, op.Distinct) :
    ∃ bs', calls bs ops = some ((F.calls qs ops).1, bs') ∧ HoldAll F bs' (F.calls qs ops).2 := by
  induction ops generalizing bs qs with
  | nil => exact ⟨bs, rfl, h⟩
  | cons op ops ih =>
    obtain ⟨bs', hcall, hnext⟩ := h.call hpos (hops op (by simp))
    obtain ⟨bs'', hcalls, hlast⟩ := ih hnext fun op' hop' => hops op' (by simp [hop'])
    refine ⟨bs'', ?_, hlast⟩
    rw [CRingBuffer.calls, hcall, Option.bind_some]
    dsimp only
    rw [hcalls]
    rfl

/-- Buffers just initialised behave as a family of empty queues does, and their indices stay in
    bounds. -/
theorem refines {data : ι → ℤ → T} (hpos : ∀ i, 1 ≤ F.cap i) (hlt : ∀ i, F.cap i < 2 ^ 31)
    (hinit : ∀ i, init (F.cap i) (F.flag i) (data i) = some (bs i)) {ops : List (RingCall ι T)}
    (hops : ∀ op ∈ ops, op.Distinct) :
    ∃ bs', calls bs ops = some ((F.calls (fun _ => []) ops).1, bs') ∧
      ∀ i, (bs' i).InBounds ∧ (bs' i).count = ((F.calls (fun _ => []) ops).2 i).length ∧
        slots (bs' i).data (bs' i).capacity (bs' i).rIndex (bs' i).count.toNat =
          (F.calls (fun _ => []) ops).2 i := by
  obtain ⟨bs', hcalls, hholds⟩ :=
    HoldAll.calls (F := F) (fun i => holds_init (hlt i) (hinit i)) hpos hops
  refine ⟨bs', hcalls, fun i => ⟨(hholds i).inBounds, (hholds i).count, ?_⟩⟩
  rw [(hholds i).count, Int.toNat_natCast, (hholds i).capacity, (hholds i).content]

/-- Two buffers, of two elements and of one that is overwritten, and one sequence of calls. -/
theorem refines_two : ∃ bs', calls (T := UInt8)
    (fun i => ⟨0, 0, 0, if i then 1 else 2, if i then .RBF_OVERWRITE else .RBF_DEFAULT, fun _ => 0⟩)
    [.writen false [1, 2, 3], .move true false 2, .read true] =
      some ([.count 2, .count 2, .element (some 2)], bs') := by
  have hinit : ∀ i : Bool, init (if i then 1 else 2 : ℕ)
      (if i then .RBF_OVERWRITE else .RBF_DEFAULT) (fun _ => (0 : UInt8)) =
        some ⟨0, 0, 0, if i then 1 else 2, if i then .RBF_OVERWRITE else .RBF_DEFAULT,
          fun _ => 0⟩ := by
    intro i
    cases i <;> rfl
  have hops : ∀ op ∈ ([.writen false [1, 2, 3], .move true false 2, .read true] :
      List (RingCall Bool UInt8)), op.Distinct := by
    simp [RingCall.Distinct]
  obtain ⟨bs', h, _⟩ := refines
    (F := ⟨fun i => if i then 1 else 2, fun i => if i then .RBF_OVERWRITE else .RBF_DEFAULT⟩)
    (by decide) (by decide) hinit hops
  exact ⟨bs', h⟩

/-- Moving to a buffer that is overwritten is not limited by the room left in it. -/
theorem move_overwrites : ∃ b b₁ src src₁ b' src' : CRingBuffer UInt8,
    init 1 .RBF_OVERWRITE (fun _ => 0) = some b ∧ b.write 1 = (true, b₁) ∧
    init 1 .RBF_DEFAULT (fun _ => 0) = some src ∧ src.write 2 = (true, src₁) ∧
    b₁.move src₁ 1 = some (1, b', src') ∧ min 1 (min src₁.length b₁.freeSpace) = 0 ∧
      b'.read.1 = some 2 :=
  ⟨_, _, _, _, _, _, rfl, rfl, rfl, rfl, rfl, rfl, rfl⟩

end CRingBuffer

end DemoOs
