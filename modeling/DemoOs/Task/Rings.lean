import Mathlib.Data.Fintype.Card
import Mathlib.Data.Set.List
import DemoOs.Task.Schedule

/-!
# The rings of the kernel

The rings of a well-formed kernel (`Kernel.Shape`): each header is in a ring of its own, a thread is
in at most one of them, in a ready ring only if it is the ring of its priority, and the cursor of a
ready ring is in it. What the operations of the scheduler do to them:

* `Shape.enqueue` and `Shape.remove`: a thread enters or leaves its ready ring;
* `Shape.findNextThread_eq`: the thread found is the first ready one after the cursor, or else the
  cursor;
* `Shape.allocate` and `Shape.deallocate`: a thread leaves or enters the free list.
-/

namespace DemoOs

namespace Kernel

/-- The rings `R` of a well-formed kernel, by their headers. -/
structure Shape (k : Kernel) (R : Hdr → Cycle Node) : Prop where
  rings : k.links.Rings R
  header : ∀ h, .hdr h ∈ R h
  prio : ∀ ⦃t p⦄, .thread t ∈ R (.ready p) → (k.thr (.thread t)).priority = p
  cursor : ∀ p, ∃ c ∈ R (.ready p), k.curNodeInGroup p = some c

variable {k k' : Kernel} {R : Hdr → Cycle Node} {t : Tid} {h h' : Hdr} {p : Prio} {x : Node}

/-! ## Reading the rings -/

/-- In each ring there is its own header only. -/
theorem Shape.hdr_mem (hs : Shape k R) (hx : .hdr h' ∈ R h) : h' = h :=
  hs.rings.disjoint (hs.header h') hx

/-- The nodes of a ring are its header and threads. -/
theorem Shape.eq_thread (hs : Shape k R) (hx : x ∈ R h) (hne : x ≠ .hdr h) :
    ∃ t, x = .thread t := by
  cases x with
  | hdr h' => exact absurd (hs.hdr_mem hx ▸ rfl) hne
  | thread t => exact ⟨t, rfl⟩

/-- A thread is on the list of which it is in the ring. -/
theorem Shape.onList_iff (hs : Shape k R) : k.OnList h t ↔ .thread t ∈ R h :=
  (hs.rings.ring h).reaches_iff (hs.header h)

/-- The threads of a ring, in their order after the header. -/
theorem Shape.exists_threads (hs : Shape k R) (h : Hdr) :
    ∃ ts : List Tid, R h = ↑(.hdr h :: ts.map .thread : List Node) ∧ ts.Nodup := by
  obtain ⟨l, hl⟩ := Links.exists_coe_cons_of_mem (hs.header h)
  have hnd := Cycle.nodup_coe_iff.1 (hl ▸ (hs.rings.ring h).nodup)
  obtain ⟨hhdr, hnd⟩ := List.nodup_cons.1 hnd
  have hthread : ∀ x ∈ l, ∃ t, Node.thread t = x := by
    intro x hx
    obtain ⟨t, ht⟩ := hs.eq_thread (x := x) (h := h) (by rw [hl]; simp [hx])
      (by rintro rfl; exact hhdr hx)
    exact ⟨t, ht.symm⟩
  obtain ⟨ts, rfl⟩ : l ∈ Set.range (List.map Node.thread) := by
    rw [Set.range_list_map]
    exact hthread
  exact ⟨ts, hl, hnd.of_map _⟩

/-- Kernels with the same links, cursors and priorities have the same rings. -/
theorem Shape.congr (hs : Shape k R) (hl : k'.links = k.links)
    (hc : k'.curNodeInGroup = k.curNodeInGroup)
    (hp : ∀ t, (k'.thr (.thread t)).priority = (k.thr (.thread t)).priority) : Shape k' R where
  rings := hl ▸ hs.rings
  header := hs.header
  prio t _ ht := (hp t).trans (hs.prio ht)
  cursor := hc ▸ hs.cursor

/-- The kernels may differ in the ticks and processes of the threads, in the thread lists of the
    processes and in the counters of the thread manager. -/
structure SameSched (k' k : Kernel) : Prop where
  links : k'.links = k.links
  curThread : k'.curThread = k.curThread
  higherPriorityThread : k'.higherPriorityThread = k.higherPriorityThread
  maxPrio : k'.maxPrio = k.maxPrio
  curNodeInGroup : k'.curNodeInGroup = k.curNodeInGroup
  val : k'.val = k.val
  priority : ∀ x, (k'.thr x).priority = (k.thr x).priority
  state : ∀ x, (k'.thr x).state = (k.thr x).state

/-- The rings are those of the links and the priorities. -/
theorem SameSched.shape (h : SameSched k' k) (hs : Shape k R) : Shape k' R :=
  hs.congr h.links h.curNodeInGroup fun t => h.priority (.thread t)

/-- A thread changes, but not its priority. -/
theorem Shape.modThread (hs : Shape k R) (x : Node) {f : Thread → Thread}
    (hf : ∀ t, (f t).priority = t.priority) : Shape (k.modThread x f) R := by
  refine hs.congr rfl rfl fun t => ?_
  rw [modThread_thr]
  split_ifs
  exacts [hf _, rfl]

/-- A thread changes its state. -/
theorem Shape.setState (hs : Shape k R) (x : Node) (s : State) : Shape (k.setState x s) R :=
  hs.modThread x fun _ => rfl

/-- `_priorityArray[p]._curNodeInGroup = x`. -/
def setCursor (k : Kernel) (p : Prio) (x : Node) : Kernel :=
  { k with curNodeInGroup := Function.update k.curNodeInGroup p (some x) }

section SetCursor

variable (k : Kernel) (p : Prio) (x : Node)

@[simp] theorem setCursor_links : (k.setCursor p x).links = k.links := rfl

@[simp] theorem setCursor_thr : (k.setCursor p x).thr = k.thr := rfl

@[simp] theorem setCursor_curThread : (k.setCursor p x).curThread = k.curThread := rfl

@[simp] theorem setCursor_maxPrio : (k.setCursor p x).maxPrio = k.maxPrio := rfl

@[simp] theorem setCursor_higherPriorityThread :
    (k.setCursor p x).higherPriorityThread = k.higherPriorityThread := rfl

@[simp] theorem setCursor_val : (k.setCursor p x).val = k.val := rfl

@[simp] theorem setCursor_curNodeInGroup (q : Prio) :
    (k.setCursor p x).curNodeInGroup q = if q = p then some x else k.curNodeInGroup q := by
  by_cases h : q = p <;> simp [setCursor, h]

end SetCursor

/-- Moving a cursor along its ring. -/
theorem Shape.setCursor (hs : Shape k R) (hx : x ∈ R (.ready p)) : Shape (k.setCursor p x) R where
  rings := hs.rings
  header := hs.header
  prio := hs.prio
  cursor q := by
    by_cases hq : q = p
    · subst hq
      exact ⟨x, hx, Function.update_self ..⟩
    · obtain ⟨c, hc, hqc⟩ := hs.cursor q
      exact ⟨c, hc, (Function.update_of_ne hq ..).trans hqc⟩

/-! ## Threads entering a ready ring -/

/-- A thread newly linked is remembered when it has the highest priority so far. -/
def raise (k : Kernel) (x : Node) : Kernel :=
  if k.maxPrio < ((k.thr x).priority : ℤ) then
    { k with maxPrio := (k.thr x).priority, higherPriorityThread := some x }
  else k

section Raise

variable (k : Kernel) (x : Node)

@[simp] theorem raise_links : (k.raise x).links = k.links := by
  unfold raise; split_ifs <;> rfl

@[simp] theorem raise_thr : (k.raise x).thr = k.thr := by
  unfold raise; split_ifs <;> rfl

@[simp] theorem raise_curThread : (k.raise x).curThread = k.curThread := by
  unfold raise; split_ifs <;> rfl

@[simp] theorem raise_curNodeInGroup : (k.raise x).curNodeInGroup = k.curNodeInGroup := by
  unfold raise; split_ifs <;> rfl

@[simp] theorem raise_val : (k.raise x).val = k.val := by
  unfold raise; split_ifs <;> rfl

@[simp] theorem raise_procLinks : (k.raise x).procLinks = k.procLinks := by
  unfold raise; split_ifs <;> rfl

/-- The highest priority, with the thread. -/
theorem raise_maxPrio : (k.raise x).maxPrio = max k.maxPrio (k.thr x).priority := by
  unfold raise; split_ifs <;> simp <;> omega

/-- The thread is pending if it has a higher priority than all that have run. -/
theorem raise_higherPriorityThread :
    (k.raise x).higherPriorityThread =
      if k.maxPrio < (k.thr x).priority then some x else k.higherPriorityThread := by
  unfold raise; split_ifs <;> rfl

variable {k x}

/-- A thread of higher priority is pending. -/
theorem raise_of_lt (h : k.maxPrio < (k.thr x).priority) :
    k.raise x = { k with maxPrio := (k.thr x).priority, higherPriorityThread := some x } := if_pos h

/-- A thread of no higher priority changes nothing. -/
theorem raise_of_le (h : (k.thr x).priority ≤ k.maxPrio) : k.raise x = k := if_neg (not_lt.2 h)

/-- The highest priority is that of a ring. -/
theorem exists_raise_maxPrio (h : ∃ q : Prio, k.maxPrio = (q : ℕ)) :
    ∃ q : Prio, (k.raise x).maxPrio = (q : ℕ) := by
  unfold raise
  split_ifs
  exacts [⟨_, rfl⟩, h]

end Raise

/-- The two ways to insert a node next to another one. -/
def Insertion (insert : Links Node → Node → Node → Option (Links Node)) : Prop :=
  insert = Links.insertAfter ∨ insert = Links.insertBefore

variable {insert : Links Node → Node → Node → Option (Links Node)}

/-- A thread that is not ready is not enqueued. -/
theorem enqueue_of_not_ready (hx : (k.thr x).state ≠ .ready) : enqueue insert k x = some k :=
  if_neg hx

/-- A thread that is ready is inserted at the cursor of its ring. -/
theorem enqueue_eq {c : Node} {L : Links Node} (hx : (k.thr x).state = .ready)
    (hc : k.curNodeInGroup (k.thr x).priority = some c) (hL : insert k.links c x = some L) :
    enqueue insert k x = some ({ k with links := L }.raise x) := by
  simp only [Kernel.enqueue, if_pos hx, hc, hL, Option.bind_eq_bind, Option.bind_some, raise]
  split_ifs <;> rfl

/-- Before or behind the cursor, the thread is then in the ring. -/
theorem Insertion.rings (hins : Insertion insert) {L : Links Node} {c : Node} (hr : L.Rings R)
    (hc : c ∈ R h) (hx : ∀ h, x ∉ R h) :
    ∃ L' R', insert L c x = some L' ∧ L'.Rings R' ∧ (∀ j, j ≠ h → R' j = R j) ∧
      ∀ j y, y ∈ R' j ↔ y ∈ R j ∨ j = h ∧ y = x := by
  rcases hins with rfl | rfl
  exacts [hr.exists_insertAfter hc hx, hr.exists_insertBefore hc hx]

/-- The rings with a thread more. -/
theorem Shape.of_enqueue {L' : Links Node} {R' : Hdr → Cycle Node} (hs : Shape k R)
    (hr : L'.Rings R')
    (hmem : ∀ j y, y ∈ R' j ↔ y ∈ R j ∨ j = .ready (k.thr (.thread t)).priority ∧ y = .thread t) :
    Shape ({ k with links := L' }.raise (.thread t)) R' where
  rings := by rwa [raise_links]
  header h := (hmem h _).2 (.inl (hs.header h))
  prio u p hu := by
    rw [raise_thr]
    rcases (hmem _ _).1 hu with hu | ⟨hp, hu⟩
    · exact hs.prio hu
    · rw [hu]
      exact (Hdr.ready.inj hp).symm
  cursor p := by
    rw [raise_curNodeInGroup]
    exact (hs.cursor p).imp fun c hc => ⟨(hmem _ _).2 (.inl hc.1), hc.2⟩

/-- A thread in no list goes to the ready ring of its priority. -/
theorem Shape.enqueue (hs : Shape k R) (hins : Insertion insert)
    (hready : (k.thr (.thread t)).state = .ready) (hfree : ∀ h, .thread t ∉ R h) :
    ∃ L' R', Kernel.enqueue insert k (.thread t) = some ({ k with links := L' }.raise (.thread t)) ∧
      Shape ({ k with links := L' }.raise (.thread t)) R' ∧
      (∀ j, j ≠ .ready (k.thr (.thread t)).priority → R' j = R j) ∧
      ∀ j y, y ∈ R' j ↔ y ∈ R j ∨ j = .ready (k.thr (.thread t)).priority ∧ y = .thread t := by
  obtain ⟨c, hc, hcur⟩ := hs.cursor (k.thr (.thread t)).priority
  obtain ⟨L', R', hL', hr, hother, hmem⟩ := hins.rings hs.rings hc hfree
  exact ⟨L', R', enqueue_eq hready hcur hL', hs.of_enqueue hr hmem, hother, hmem⟩

/-! ## Threads leaving a list -/

/-- A thread leaves its ring, and is then in no list. -/
theorem Shape.erase (hs : Shape k R) (ht : .thread t ∈ R h) :
    ∃ L' R' n, k.links.erase (.thread t) = some L' ∧ L'.Rings R' ∧
      (k.links.next (.thread t) = some n ∧ n ∈ R' h) ∧
      ∀ j y, y ∈ R' j ↔ y ∈ R j ∧ y ≠ .thread t :=
  hs.rings.exists_erase ht (hs.header h) (by simp)

/-- `remove` takes a thread out of its ready ring, the rings being `R'` then, and the cursor of the
    ring moves to the node after it. -/
theorem Shape.of_remove {L' : Links Node} {R' : Hdr → Cycle Node} {n : Node} (hs : Shape k R)
    (ht : .thread t ∈ R (.ready p)) (hL' : k.links.erase (.thread t) = some L') (hr : L'.Rings R')
    (hn : k.links.next (.thread t) = some n) (hn' : n ∈ R' (.ready p))
    (hmem : ∀ j y, y ∈ R' j ↔ y ∈ R j ∧ y ≠ .thread t) :
    Kernel.remove k (.thread t) = some ({ k with links := L' }.setCursor p n) ∧
      Shape ({ k with links := L' }.setCursor p n) R' := by
  refine ⟨?_, hr, fun h => (hmem h _).2 ⟨hs.header h, by simp⟩,
    fun u q hu => hs.prio ((hmem _ _).1 hu).1, fun q => ?_⟩
  · rw [Kernel.remove, hs.prio ht, hn, hL']
    rfl
  · by_cases hq : q = p
    · subst hq
      exact ⟨n, hn', Function.update_self ..⟩
    · obtain ⟨c, hc, hqc⟩ := hs.cursor q
      refine ⟨c, (hmem _ _).2 ⟨hc, ?_⟩, (Function.update_of_ne hq ..).trans hqc⟩
      rintro rfl
      exact hq (Hdr.ready.inj (hs.rings.disjoint hc ht))

/-- A thread that is ready is taken out of its ring, and the cursor is where the search is to
    begin. -/
theorem Shape.remove (hs : Shape k R) (ht : .thread t ∈ R (.ready p)) :
    ∃ L' R' n, Kernel.remove k (.thread t) = some ({ k with links := L' }.setCursor p n) ∧
      Shape ({ k with links := L' }.setCursor p n) R' ∧
      (k.links.next (.thread t) = some n ∧ n ∈ R' (.ready p)) ∧
      ∀ j y, y ∈ R' j ↔ y ∈ R j ∧ y ≠ .thread t := by
  obtain ⟨L', R', n, hL', hr, ⟨hn, hn'⟩, hmem⟩ := hs.erase ht
  obtain ⟨hrem, hs'⟩ := hs.of_remove ht hL' hr hn hn' hmem
  exact ⟨L', R', n, hrem, hs', ⟨hn, hn'⟩, hmem⟩

/-- The same with the order of the ring, read from another node `c`. -/
theorem Shape.remove_middle {c : Node} {l₁ l₂ : List Node} (hs : Shape k R)
    (hring : R (.ready p) = ↑(c :: (l₁ ++ .thread t :: l₂))) :
    ∃ L' R' n, Kernel.remove k (.thread t) = some ({ k with links := L' }.setCursor p n) ∧
      Shape ({ k with links := L' }.setCursor p n) R' ∧ (l₂ ++ [c]).head? = some n ∧
      R' (.ready p) = ↑(c :: (l₁ ++ l₂)) := by
  have ht : .thread t ∈ R (.ready p) := by
    rw [hring]
    simp
  obtain ⟨L', hL', hr⟩ := hs.rings.erase_middle hring
  have hnext := (hring ▸ hs.rings.ring (.ready p)).next_middle
  have hnd := Cycle.nodup_coe_iff.1 (hring ▸ (hs.rings.ring (.ready p)).nodup)
  obtain ⟨n, hn⟩ := Option.isSome_iff_exists.1
    (show ((l₂ ++ [c]).head?).isSome by cases l₂ <;> rfl)
  have hself : Function.update R (.ready p) ↑(c :: (l₁ ++ l₂)) (.ready p) = ↑(c :: (l₁ ++ l₂)) :=
    Function.update_self ..
  -- The cursor is moved on to the next node, which may be the header.
  have hn' : n ∈ Function.update R (.ready p) ↑(c :: (l₁ ++ l₂)) (.ready p) := by
    have := List.mem_of_head? hn
    rw [hself, Cycle.mem_coe_iff]
    simp only [List.mem_append, List.mem_cons, List.not_mem_nil, or_false] at this ⊢
    tauto
  have hmem : ∀ j y, y ∈ Function.update R (.ready p) ↑(c :: (l₁ ++ l₂)) j ↔
      y ∈ R j ∧ y ≠ .thread t := fun j y => by
    by_cases hj : j = .ready p
    · subst hj
      have hperm : (c :: (l₁ ++ Node.thread t :: l₂)).Perm (.thread t :: c :: (l₁ ++ l₂)) :=
        (List.perm_middle.cons c).trans (.swap ..)
      have hnt := (List.nodup_cons.1 (hperm.nodup_iff.1 hnd)).1
      rw [hself, hring, Cycle.mem_coe_iff, Cycle.mem_coe_iff, hperm.mem_iff,
        List.mem_cons (a := y) (b := .thread t)]
      refine ⟨fun hy => ⟨.inr hy, ?_⟩, fun ⟨hy, hne⟩ => hy.resolve_left hne⟩
      rintro rfl
      exact hnt hy
    · rw [Function.update_of_ne hj]
      refine ⟨fun hy => ⟨hy, ?_⟩, And.left⟩
      rintro rfl
      exact hj (hs.rings.disjoint hy ht)
  obtain ⟨hrem, hs'⟩ := hs.of_remove ht hL' hr (hnext.trans hn) hn' hmem
  exact ⟨L', _, n, hrem, hs', hn, hself⟩

/-! ## The next thread -/

/-- Whether the loop of `findNextThread` stops at the node `x`. -/
def Candidate (k : Kernel) (header x : Node) : Bool :=
  x ≠ header ∧ (k.thr x).state = .ready

/-- The loop of `findNextThread` along a path back to the cursor. -/
theorem findReady_eq (header : Node) {c : Node} {l : List Node} {fuel : ℕ} (hc : c ∉ l)
    (hchain : (l ++ [c]).IsChain k.links.Linked) (hfuel : l.length < fuel)
    (hx : (l ++ [c]).head? = some x) :
    findReady k header c fuel x = some ((l.find? (k.Candidate header)).getD c) := by
  induction l generalizing x fuel with
  | nil =>
    obtain ⟨fuel, rfl⟩ : ∃ n, fuel = n + 1 := ⟨fuel - 1, by omega⟩
    obtain rfl : c = x := by simpa using hx
    simp [findReady]
  | cons a l ih =>
    obtain ⟨fuel, rfl⟩ : ∃ n, fuel = n + 1 := ⟨fuel - 1, by omega⟩
    obtain rfl : a = x := by simpa using hx
    have hac : a ≠ c := by rintro rfl; simp at hc
    by_cases ha : k.Candidate header a
    · rw [List.find?_cons_of_pos ha, findReady, if_neg hac, if_pos (by simpa [Candidate] using ha)]
      rfl
    · rw [List.find?_cons_of_neg ha, findReady, if_neg hac, if_neg (by simpa [Candidate] using ha)]
      obtain ⟨b, l', hl'⟩ : ∃ b l', l ++ [c] = b :: l' :=
        List.exists_cons_of_ne_nil (by simp)
      rw [List.cons_append, hl', List.isChain_cons_cons] at hchain
      rw [hchain.1.1, Option.bind_some]
      exact ih (by simp_all) (hl' ▸ hchain.2) (by simp at hfuel; omega) (by rw [hl']; rfl)

/-- A ring has a header and at most as many threads as there are identifiers. -/
theorem Shape.length_le (hs : Shape k R) {l : List Node} (hl : R h = ↑l) :
    l.length ≤ 2 ^ 16 + 1 := by
  obtain ⟨ts, hts, hnd⟩ := hs.exists_threads h
  have hlen : l.length = ts.length + 1 := by
    simpa using congrArg Cycle.length (hl.symm.trans hts)
  have hcard := hnd.length_le_card
  rw [Fintype.card_fin] at hcard
  omega

/-- `findNextThread` finds the first ready thread after the cursor, or else the cursor. -/
theorem Shape.findNextThread_eq (hs : Shape k R) (hq : k.maxPrio = (p : ℕ)) {c : Node}
    {l : List Node} (hc : k.curNodeInGroup p = some c) (hl : R (.ready p) = ↑(c :: l)) :
    let next := (l.find? (k.Candidate (.hdr (.ready p)))).getD c
    k.findNextThread = some (k.setCursor p next, next) := by
  have hring : k.links.IsRing ↑(c :: l) := hl ▸ hs.rings.ring (.ready p)
  have hnd := List.nodup_cons.1 (Cycle.nodup_coe_iff.1 hring.nodup)
  obtain ⟨b, l', hl'⟩ : ∃ b l', l ++ [c] = b :: l' := List.exists_cons_of_ne_nil (by simp)
  have hchain := (Cycle.chain_coe_cons _ _ _).1 hring.linked
  rw [hl', List.isChain_cons_cons] at hchain
  have hfuel : l.length < 2 ^ 32 := by
    have := hs.length_le hl
    simp only [List.length_cons] at this
    omega
  have hfind := findReady_eq (.hdr (.ready p)) hnd.1 (hl' ▸ hchain.2) hfuel (by rw [hl']; rfl)
  simp only [findNextThread, hq, group_coe, hc, hchain.1.1, hfind, Option.bind_eq_bind,
    Option.bind_some, Kernel.setCursor]

/-- What `findNextThread` finds in the ready ring of the priority `p`: a ready thread or, when there
    is no other one, the cursor. -/
def Found (k : Kernel) (R : Hdr → Cycle Node) (p : Prio) (x : Node) : Prop :=
  (∃ t, x = .thread t ∧ (k.thr x).state = .ready) ∨
    k.curNodeInGroup p = some x ∧
      ∀ t, .thread t ∈ R (.ready p) → .thread t ≠ x → (k.thr (.thread t)).state ≠ .ready

/-- The search finds a node of the ring of the highest priority. -/
theorem Shape.findNextThread (hs : Shape k R) (hq : k.maxPrio = (p : ℕ)) :
    ∃ x ∈ R (.ready p), k.findNextThread = some (k.setCursor p x, x) ∧ k.Found R p x := by
  obtain ⟨c, hc, hcur⟩ := hs.cursor p
  obtain ⟨l, hl⟩ := Links.exists_coe_cons_of_mem hc
  have hfind := hs.findNextThread_eq hq hcur hl
  cases hx : l.find? (k.Candidate (.hdr (.ready p))) with
  | none =>
    rw [hx] at hfind
    refine ⟨c, hc, hfind, .inr ⟨hcur, fun t ht htc hready => ?_⟩⟩
    rw [hl, Cycle.mem_coe_iff, List.mem_cons] at ht
    have := List.find?_eq_none.1 hx _ (ht.resolve_left htc)
    simp [Candidate, hready] at this
  | some x =>
    rw [hx] at hfind
    have hcand := List.find?_some hx
    simp only [Candidate, decide_eq_true_eq] at hcand
    have hmem : x ∈ R (.ready p) := by
      rw [hl]
      simp [List.mem_of_find?_eq_some hx]
    obtain ⟨t, rfl⟩ := hs.eq_thread hmem hcand.1
    exact ⟨_, hmem, hfind, .inl ⟨t, rfl, hcand.2⟩⟩

/-- There is a thread to find: the cursor, or a ready one. -/
def Selectable (k : Kernel) (p : Prio) : Prop :=
  (∃ t, k.curNodeInGroup p = some (.thread t)) ∨
    ∃ t, k.OnList (.ready p) t ∧ (k.thr (.thread t)).state = .ready

/-- It is a thread, if the ring has one. -/
theorem Found.exists_thread (hs : Shape k R) (hx : k.Found R p x) (hsel : k.Selectable p) :
    ∃ t, x = .thread t := by
  rcases hx with ⟨t, rfl, -⟩ | ⟨hcur, hno⟩
  · exact ⟨t, rfl⟩
  · rcases hsel with ⟨t, ht⟩ | ⟨t, ht, hready⟩
    · exact ⟨t, Option.some.inj (hcur.symm.trans ht)⟩
    · by_contra hne
      exact hno t (hs.onList_iff.1 ht) (fun h => hne ⟨t, h.symm⟩) hready

/-! ## The free list -/

/-- The rings without a thread that was in none of those of ready threads. -/
theorem Shape.of_unlink {L' : Links Node} {R' : Hdr → Cycle Node} (hs : Shape k R)
    (ht : .thread t ∈ R h) (hh : ∀ p, h ≠ .ready p) (hr : L'.Rings R')
    (hmem : ∀ j y, y ∈ R' j ↔ y ∈ R j ∧ y ≠ .thread t) : Shape { k with links := L' } R' where
  rings := hr
  header h := (hmem h _).2 ⟨hs.header h, by simp⟩
  prio _ _ hu := hs.prio ((hmem _ _).1 hu).1
  cursor q := by
    obtain ⟨c, hc, hqc⟩ := hs.cursor q
    refine ⟨c, (hmem _ _).2 ⟨hc, ?_⟩, hqc⟩
    rintro rfl
    exact hh q (hs.rings.disjoint ht hc)

/-- A thread leaves a list other than the ready rings. -/
theorem Shape.unlink (hs : Shape k R) (ht : .thread t ∈ R h) (hh : ∀ p, h ≠ .ready p) :
    ∃ L' R', k.links.erase (.thread t) = some L' ∧ Shape { k with links := L' } R' ∧
      ∀ j y, y ∈ R' j ↔ y ∈ R j ∧ y ≠ .thread t := by
  obtain ⟨L', R', n, hL', hr, -, hmem⟩ := hs.erase ht
  exact ⟨L', R', hL', hs.of_unlink ht hh hr hmem, hmem⟩

/-- The first thread leaves a list other than the ready rings, the others staying in their order. -/
theorem Shape.unlink_first {ts : List Tid} (hs : Shape k R)
    (hts : R h = ↑(.hdr h :: (t :: ts).map .thread : List Node)) (hh : ∀ p, h ≠ .ready p) :
    ∃ L' R', k.links.erase (.thread t) = some L' ∧ Shape { k with links := L' } R' ∧
      R' h = ↑(.hdr h :: ts.map .thread : List Node) ∧
      ∀ j y, y ∈ R' j ↔ y ∈ R j ∧ y ≠ .thread t := by
  have ht : .thread t ∈ R h := by rw [hts]; simp
  have hnd := Cycle.nodup_coe_iff.1 (hts ▸ (hs.rings.ring h).nodup)
  -- Take the thread as the first node of the ring.
  have hrot : R h = ↑(.thread t :: (ts.map .thread ++ [.hdr h]) : List Node) := by
    rw [hts, Links.coe_cons_append]
    rfl
  obtain ⟨y, l, hl⟩ : ∃ y l, ts.map Node.thread ++ [.hdr h] = y :: l :=
    List.exists_cons_of_ne_nil (by simp)
  have hcoe : ((y :: l : List Node) : Cycle Node) = ↑(.hdr h :: ts.map .thread : List Node) := by
    rw [← hl]
    exact Cycle.coe_eq_coe.2 List.isRotated_append
  obtain ⟨L', hL', hr⟩ := hs.rings.erase (hl ▸ hrot)
  have hmem : ∀ j x, x ∈ Function.update R h ↑(y :: l) j ↔ x ∈ R j ∧ x ≠ .thread t := by
    intro j x
    by_cases hj : j = h
    · subst hj
      rw [Function.update_self, hcoe, hts]
      simp only [List.map_cons, List.nodup_cons, List.mem_cons] at hnd
      simp only [Cycle.mem_coe_iff, List.mem_cons, List.map_cons]
      constructor
      · rintro (rfl | hx)
        · simp
        · exact ⟨.inr (.inr hx), by rintro rfl; exact hnd.2.1 hx⟩
      · rintro ⟨hx, hne⟩
        tauto
    · rw [Function.update_of_ne hj]
      refine ⟨fun hx => ⟨hx, ?_⟩, And.left⟩
      rintro rfl
      exact hj (hs.rings.disjoint hx ht)
  exact ⟨L', _, hL', hs.of_unlink ht hh hr hmem, (Function.update_self ..).trans hcoe, hmem⟩

/-- A thread enters a list other than the ready rings, as its last one. -/
theorem Shape.link (hs : Shape k R) (hfree : ∀ h, .thread t ∉ R h) (hh : ∀ p, h ≠ .ready p) :
    ∃ L' R', k.links.insertBefore (.hdr h) (.thread t) = some L' ∧ Shape { k with links := L' } R' ∧
      ∀ j y, y ∈ R' j ↔ y ∈ R j ∨ j = h ∧ y = .thread t := by
  obtain ⟨L', R', hL', hr, -, hmem⟩ := hs.rings.exists_insertBefore (hs.header h) hfree
  refine ⟨L', R', hL', ⟨hr, fun j => (hmem j _).2 (.inl (hs.header j)), fun u q hu => ?_,
    fun q => (hs.cursor q).imp fun c hc => ⟨(hmem _ _).2 (.inl hc.1), hc.2⟩⟩, hmem⟩
  exact ((hmem _ _).1 hu).elim (fun hu => hs.prio hu) fun hu => absurd hu.1.symm (hh q)

/-- A list with a thread in it has a first one. -/
theorem Shape.exists_first (hs : Shape k R) (ht : .thread t ∈ R h) :
    ∃ u, .thread u ∈ R h ∧ k.links.next (.hdr h) = some (.thread u) := by
  obtain ⟨ts, hts, -⟩ := hs.exists_threads h
  cases ts with
  | nil => rw [hts] at ht; simp at ht
  | cons u ts =>
    have hring : k.links.IsRing ↑(.hdr h :: .thread u :: ts.map .thread : List Node) :=
      hts ▸ hs.rings.ring h
    exact ⟨u, by rw [hts]; simp, hring.linked_cons_cons.1⟩

/-- The memory after an allocation, with `t` now used. -/
def used (k : Kernel) (L : Links Node) (t : Tid) : Kernel :=
  let n := word (k.curUsedThreadNum + 1)
  { k with
    links := L
    curUsedThreadNum := n
    maxUsedThreadNum := if n > k.maxUsedThreadNum then n else k.maxUsedThreadNum }.modThread
    (.thread t) fun t => { t with proc := none, state := .ready, execTicks := 0, totalTicks := 10 }

section Used

variable (k : Kernel) (L : Links Node) (t : Tid)

@[simp] theorem used_links : (k.used L t).links = L := rfl

@[simp] theorem used_curThread : (k.used L t).curThread = k.curThread := rfl

@[simp] theorem used_maxPrio : (k.used L t).maxPrio = k.maxPrio := rfl

@[simp] theorem used_higherPriorityThread :
    (k.used L t).higherPriorityThread = k.higherPriorityThread := rfl

@[simp] theorem used_curNodeInGroup : (k.used L t).curNodeInGroup = k.curNodeInGroup := rfl

@[simp] theorem used_val : (k.used L t).val = k.val := rfl

@[simp] theorem used_priority (x : Node) : ((k.used L t).thr x).priority = (k.thr x).priority := by
  simp only [used, modThread_thr]
  split_ifs <;> rfl

@[simp] theorem used_state (x : Node) :
    ((k.used L t).thr x).state = if x = .thread t then .ready else (k.thr x).state := by
  simp only [used, modThread_thr]
  split_ifs <;> rfl

end Used

/-- A new thread comes from the free list, and is in no list. -/
theorem Shape.createThread (hs : Shape k R) (ht : .thread t ∈ R .free) :
    ∃ u L' R', .thread u ∈ R .free ∧ k.createThread = some (k.used L' u, .thread u) ∧
      Shape (k.used L' u) R' ∧ ∀ j y, y ∈ R' j ↔ y ∈ R j ∧ y ≠ .thread u := by
  obtain ⟨u, hu, hnext⟩ := hs.exists_first ht
  obtain ⟨L', R', hL', hs', hmem⟩ := hs.unlink hu (by simp)
  refine ⟨u, L', R', hu, ?_, hs'.congr rfl rfl fun v => used_priority .., hmem⟩
  simp only [Kernel.createThread, allocate, hnext, hL', Option.bind_eq_bind, Option.bind_some]
  rfl

/-- A thread in no list goes to the free list. -/
theorem Shape.deallocate (hs : Shape k R) (hfree : ∀ h, .thread t ∉ R h) :
    ∃ k' R', k.deallocate (.thread t) = some k' ∧ Shape k' R' ∧
      (∀ j y, y ∈ R' j ↔ y ∈ R j ∨ j = .free ∧ y = .thread t) ∧
      k'.thr = (k.setState (.thread t) .stopped).thr ∧ k'.curThread = k.curThread ∧
      k'.maxPrio = k.maxPrio ∧ k'.higherPriorityThread = k.higherPriorityThread := by
  obtain ⟨L', R', hL', hs', hmem⟩ := (hs.setState (.thread t) .stopped).link hfree (h := .free)
    (by simp)
  refine ⟨{ k.setState (.thread t) .stopped with
      links := L', curUsedThreadNum := wordSub k.curUsedThreadNum 1 }, R', ?_,
    hs'.congr rfl rfl fun v => rfl, hmem, rfl, rfl, rfl, rfl⟩
  simp only [Kernel.deallocate, hL', Option.bind_eq_bind, Option.bind_some]
  rfl

end Kernel

end DemoOs
