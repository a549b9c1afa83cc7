import DemoOs.Lib.Chain
import DemoOs.Lib.Run
import DemoOs.Types
import Mathlib.Data.Fintype.EquivFin
import Mathlib.Data.List.FinRange

/-!
# The pool of message queues

`MsgQueueManager` keeps the queues that are free on a ring, singly linked, with a header. A queue is
taken from it in one section under the lock; its buffer is then prepared without the lock, and if
there is no memory for it the queue is given back in a second section.

A run takes sections of any number of threads in any order, and whole calls (`Action`). Of the
queues taken, some are handed out, and others being prepared. In every state of every run the ring
holds the queues that are not taken, each once, and `usedCount` is the number of those that are
(`Pool`); a call that finds no memory leaves the ring and the counter as they were (`pool_of_run`).
-/

namespace DemoOs

/-! ## The operations of rings -/

section SingleList

variable {α : Type*} [DecidableEq α]

/-- `addNodeToRingSingleListHeader`. -/
def addNodeToRingSingleListHeader (next : α → Option α) (header newNode : α) : α → Option α :=
  let next := Function.update next newNode (next header)
  Function.update next header (some newNode)

/-- `delNodeFromRingSingleListHeader`, which follows the link of the header. -/
def delNodeFromRingSingleListHeader (next : α → Option α) (header : α) :
    Option (α × (α → Option α)) :=
  (next header).map fun ret => (ret, Function.update next header (next ret))

variable {next : α → Option α} {header x : α} {l : List α}

theorem Chain.addNode (h : Chain next (next header) l (some header)) (hx : x ∉ l) (hne : header ≠ x)
    (hl : header ∉ l) : Chain (addNodeToRingSingleListHeader next header x)
      (addNodeToRingSingleListHeader next header x header) (x :: l) (some header) := by
  rw [addNodeToRingSingleListHeader, Function.update_self]
  exact (h.push hx).update (List.not_mem_cons_of_ne_of_not_mem hne hl) _

theorem Chain.delNode (h : Chain next (next header) (x :: l) (some header)) (hl : header ∉ x :: l) :
    ∃ next', delNodeFromRingSingleListHeader next header = some (x, next') ∧
      Chain next' (next' header) l (some header) ∧
      addNodeToRingSingleListHeader next' header x = next := by
  obtain ⟨hx, hrest⟩ := h
  have hne : x ≠ header := fun heq => hl (heq ▸ List.mem_cons_self)
  refine ⟨Function.update next header (next x), ?_, ?_, ?_⟩
  · rw [delNodeFromRingSingleListHeader, hx, Option.map_some]
  · rw [Function.update_self]
    exact hrest.update (List.not_mem_of_not_mem_cons hl) _
  · -- Put back, the node has the link it had.
    rw [addNodeToRingSingleListHeader, Function.update_self, Function.update_comm hne,
      Function.update_idem, ← hx, Function.update_eq_self, Function.update_eq_self]

end SingleList

namespace MsgQueueManager

/-- The nodes of the ring: `freeMsgQueueListHeader`, and those of the queues of `msgQueueArray`. -/
inductive Node
  | header
  | msgQueue (i : Fin 256)
  deriving DecidableEq

/-- The static fields. -/
structure Manager where
  usedCount : ℕ
  maxUsedCount : ℕ
  next : Node → Option Node

/-- `init`. -/
def Manager.init (m : Manager) : Manager :=
  let next := Function.update m.next Node.header (some (.msgQueue 0))
  let next := (List.finRange 255).foldl
    (fun next i => Function.update next (Node.msgQueue i.castSucc) (some (.msgQueue i.succ))) next
  { m with next := Function.update next (Node.msgQueue 255) (some .header) }

/-- The first section of `allocate`. -/
def Manager.take (m : Manager) : Option (Option (Fin 256) × Manager) :=
  if m.next .header ≠ some .header then
    match delNodeFromRingSingleListHeader m.next .header with
    | some (.msgQueue ret, next) =>
      let usedCount := word (m.usedCount + 1)
      some (some ret,
        { usedCount, maxUsedCount := if usedCount > m.maxUsedCount then usedCount
          else m.maxUsedCount, next })
    | _ => none
  else some (none, m)

/-- A queue is given back: the second section of `allocate`, and that of `deallocate`. -/
def Manager.giveBack (m : Manager) (ret : Fin 256) : Manager :=
  { m with
    next := addNodeToRingSingleListHeader m.next .header (.msgQueue ret)
    usedCount := wordSub m.usedCount 1 }

/-- `allocate`; `ok` is what `MsgQueue::init` returns. -/
def Manager.allocate (m : Manager) (maxMsgSize msgCount : ℤ) (ok : Bool) :
    Option (Option (Fin 256) × Manager) :=
  if maxMsgSize < 1 ∨ msgCount < 1 then some (none, m)
  else m.take.map fun r => match r with
    | (some ret, m) => if ok then (some ret, m) else (none, m.giveBack ret)
    | (none, m) => (none, m)

/-- `deallocate`. -/
def Manager.deallocate (m : Manager) (ret : Fin 256) : Manager := m.giveBack ret

/-! ## Runs -/

/-- The pool, the queues handed out, and those that are being prepared. -/
structure State where
  manager : Manager
  out : List (Fin 256)
  prepared : List (Fin 256)

/-- The queues taken from the pool. -/
def State.taken (s : State) : List (Fin 256) := s.out ++ s.prepared

/-- The calls, and the sections of `allocate` on their own: a thread takes a queue, and later
    `MsgQueue::init` returns. -/
inductive Action
  | allocate (maxMsgSize msgCount : ℤ) (ok : Bool)
  | deallocate (ret : Fin 256)
  | take
  | initialised (ret : Fin 256) (ok : Bool)

/-- A queue is deallocated if it has been handed out; `MsgQueue::init` returns for one being
    prepared. -/
def State.Allowed (s : State) : Action → Prop
  | .deallocate ret => ret ∈ s.out
  | .initialised ret _ => ret ∈ s.prepared
  | _ => True

def State.step (s : State) : Action → Option State
  | .allocate maxMsgSize msgCount ok =>
    (s.manager.allocate maxMsgSize msgCount ok).map fun r =>
      { s with manager := r.2, out := r.1.toList ++ s.out }
  | .deallocate ret => some { s with manager := s.manager.deallocate ret, out := s.out.erase ret }
  | .take => s.manager.take.map fun r =>
      { s with manager := r.2, prepared := r.1.toList ++ s.prepared }
  | .initialised ret ok =>
    let s := { s with prepared := s.prepared.erase ret }
    some (if ok then { s with out := ret :: s.out }
      else { s with manager := s.manager.giveBack ret })

/-- The pool after `init`, called on zero-initialised storage. -/
def start : State := ⟨Manager.init ⟨0, 0, fun _ => none⟩, [], []⟩

/-- The ring holds the queues `free`. -/
def Manager.Ring (m : Manager) (free : List (Fin 256)) : Prop :=
  Chain m.next (m.next .header) (free.map Node.msgQueue) (some .header)

/-- The ring holds the queues that are not taken, each once; no queue is taken twice; and those that
    are taken are counted. -/
structure Pool (m : Manager) (taken : List (Fin 256)) : Prop where
  ring : ∃ free, m.Ring free ∧ free.Nodup ∧ ∀ q, q ∈ free ↔ q ∉ taken
  nodup : taken.Nodup
  usedCount : m.usedCount = taken.length

variable {m m' : Manager} {q : Fin 256} {free taken taken' : List (Fin 256)} {s s' : State}

/-! ## The ring -/

theorem header_notMem (l : List (Fin 256)) : Node.header ∉ l.map Node.msgQueue := by simp

theorem msgQueue_mem {l : List (Fin 256)} : Node.msgQueue q ∈ l.map Node.msgQueue ↔ q ∈ l := by simp

theorem Manager.Ring.take_nil (h : m.Ring []) : m.take = some (none, m) := if_neg (not_not_intro h)

/-- The first queue of the ring is taken; given back, it would be there again. -/
theorem Manager.Ring.take_cons (h : m.Ring (q :: free)) :
    ∃ m', m.take = some (some q, m') ∧ m'.Ring free ∧ m'.usedCount = word (m.usedCount + 1) ∧
      (m'.giveBack q).next = m.next := by
  have hheader := header_notMem (q :: free)
  obtain ⟨next', hdel, hring, hback⟩ := Chain.delNode h hheader
  have hne : m.next .header ≠ some .header := fun heq =>
    List.cons_ne_nil _ _ ((Chain.next_eq_iff h hheader).1 heq)
  let usedCount := word (m.usedCount + 1)
  refine ⟨⟨usedCount, if usedCount > m.maxUsedCount then usedCount else m.maxUsedCount, next'⟩, ?_,
    hring, rfl, hback⟩
  rw [take, if_pos hne, hdel]

theorem Manager.Ring.giveBack (h : m.Ring free) (hq : q ∉ free) : (m.giveBack q).Ring (q :: free) :=
  Chain.addNode h (mt msgQueue_mem.1 hq) (by simp) (header_notMem free)

/-! ## The pool -/

theorem Pool.perm (h : Pool m taken) (hperm : taken.Perm taken') : Pool m taken' := by
  obtain ⟨free, hring, hnd, hfree⟩ := h.ring
  exact ⟨⟨free, hring, hnd, fun q => by rw [hfree, hperm.mem_iff]⟩, hperm.nodup_iff.1 h.nodup,
    h.usedCount.trans hperm.length_eq⟩

theorem Pool.length_le (h : Pool m taken) : taken.length ≤ 256 := by
  have hcard := h.nodup.length_le_card
  rwa [Fintype.card_fin] at hcard

/-- A queue that is not taken is taken, unless there is none. -/
theorem Pool.take (h : Pool m taken) :
    (m.take = some (none, m) ∧ ∀ q, q ∈ taken) ∨
      ∃ q m', m.take = some (some q, m') ∧ q ∉ taken ∧ Pool m' (q :: taken) ∧
        (m'.giveBack q).next = m.next := by
  obtain ⟨free, hring, hnd, hfree⟩ := h.ring
  cases free with
  | nil => exact .inl ⟨hring.take_nil, fun q => by simpa using hfree q⟩
  | cons q free =>
    obtain ⟨m', htake, hring', hused, hback⟩ := hring.take_cons
    obtain ⟨hq, hnd⟩ := List.nodup_cons.1 hnd
    have hqt : q ∉ taken := (hfree q).1 List.mem_cons_self
    have hlen := (List.nodup_cons.2 ⟨hqt, h.nodup⟩).length_le_card
    rw [Fintype.card_fin, List.length_cons] at hlen
    refine .inr ⟨q, m', htake, hqt, ⟨⟨free, hring', hnd, fun x => ?_⟩, ?_, ?_⟩, hback⟩
    · rw [List.mem_cons, not_or, ← hfree, List.mem_cons]
      constructor
      · exact fun hx => ⟨fun heq => hq (heq ▸ hx), .inr hx⟩
      · exact fun hx => hx.2.resolve_left hx.1
    · exact List.nodup_cons.2 ⟨hqt, h.nodup⟩
    · rw [hused, h.usedCount, List.length_cons, word_eq (by omega)]

/-- A queue that is given back is free. -/
theorem Pool.giveBack (h : Pool m taken) (hq : q ∈ taken) :
    Pool (m.giveBack q) (taken.erase q) := by
  obtain ⟨free, hring, hnd, hfree⟩ := h.ring
  have hqf : q ∉ free := fun hmem => (hfree q).1 hmem hq
  have hle := h.length_le
  have hpos := List.length_pos_of_mem hq
  refine ⟨⟨q :: free, hring.giveBack hqf, List.nodup_cons.2 ⟨hqf, hnd⟩, fun x => ?_⟩,
    h.nodup.erase q, ?_⟩
  · rw [List.mem_cons, h.nodup.mem_erase_iff, hfree]
    tauto
  · rw [List.length_erase_of_mem hq, Manager.giveBack, h.usedCount, wordSub_eq hpos (by omega)]

/-- A call of `allocate`: the queue it returns is taken, if any. -/
theorem Pool.allocate (h : Pool m taken) (maxMsgSize msgCount : ℤ) (ok : Bool) :
    ∃ r m', m.allocate maxMsgSize msgCount ok = some (r, m') ∧ Pool m' (r.toList ++ taken) := by
  rw [Manager.allocate]
  by_cases hsize : maxMsgSize < 1 ∨ msgCount < 1
  · exact ⟨none, m, if_pos hsize, h⟩
  · rw [if_neg hsize]
    rcases h.take with ⟨htake, -⟩ | ⟨q, m', htake, hq, hpool, -⟩
    · exact ⟨none, m, by rw [htake]; rfl, h⟩
    · cases ok with
      | true => exact ⟨some q, m', by rw [htake]; rfl, hpool⟩
      | false =>
        refine ⟨none, m'.giveBack q, by rw [htake]; rfl, ?_⟩
        have hback := hpool.giveBack List.mem_cons_self
        rwa [List.erase_cons_head] at hback

/-- A call that finds no memory leaves the ring and the counter as they were. -/
theorem Pool.allocate_false (h : Pool m taken) (maxMsgSize msgCount : ℤ) :
    ∃ m', m.allocate maxMsgSize msgCount false = some (none, m') ∧ m'.next = m.next ∧
      m'.usedCount = m.usedCount := by
  rw [Manager.allocate]
  by_cases hsize : maxMsgSize < 1 ∨ msgCount < 1
  · exact ⟨m, if_pos hsize, rfl, rfl⟩
  · rw [if_neg hsize]
    rcases h.take with ⟨htake, -⟩ | ⟨q, m', htake, hq, hpool, hnext⟩
    · exact ⟨m, by rw [htake]; rfl, rfl, rfl⟩
    · refine ⟨m'.giveBack q, by rw [htake]; rfl, hnext, ?_⟩
      have hback := hpool.giveBack List.mem_cons_self
      rw [List.erase_cons_head] at hback
      rw [hback.usedCount, h.usedCount]

/-- Whoever does what, the pool is kept; no null link is followed. -/
theorem Pool.step {a : Action} (h : Pool s.manager s.taken) (ha : s.Allowed a) :
    ∃ s', s.step a = some s' ∧ Pool s'.manager s'.taken := by
  cases a with
  | allocate maxMsgSize msgCount ok =>
    obtain ⟨r, m', hcall, hpool⟩ := h.allocate maxMsgSize msgCount ok
    refine ⟨_, by rw [State.step, hcall, Option.map_some], ?_⟩
    rwa [State.taken, List.append_assoc]
  | deallocate ret =>
    refine ⟨_, rfl, ?_⟩
    have hback := h.giveBack (List.mem_append_left _ ha)
    rwa [State.taken, List.erase_append_left _ ha] at hback
  | take =>
    rcases h.take with ⟨htake, -⟩ | ⟨q, m', htake, -, hpool, -⟩
    · exact ⟨s, by rw [State.step, htake]; rfl, h⟩
    · refine ⟨_, by rw [State.step, htake, Option.map_some], hpool.perm ?_⟩
      exact List.perm_middle.symm
  | initialised ret ok =>
    have hret : ret ∉ s.out := fun hout => (List.nodup_append'.1 h.nodup).2.2 hout ha
    cases ok with
    | true =>
      refine ⟨{ s with out := ret :: s.out, prepared := s.prepared.erase ret }, rfl, h.perm ?_⟩
      exact ((List.perm_cons_erase ha).append_left s.out).trans List.perm_middle
    | false =>
      refine ⟨{ s with manager := s.manager.giveBack ret, prepared := s.prepared.erase ret }, rfl,
        ?_⟩
      have hback := h.giveBack (List.mem_append_right _ ha)
      rwa [State.taken, List.erase_append_right _ hret] at hback

/-! ## The start -/

section Fold

variable {α β ι : Type*} [DecidableEq α] {k : ι → α} {v : ι → β} {l : List ι} {f : α → β}
    {x : α} {i : ι}

theorem foldl_update_of_forall_ne (hx : ∀ i ∈ l, x ≠ k i) :
    l.foldl (fun f i => Function.update f (k i) (v i)) f x = f x := by
  induction l generalizing f with
  | nil => rfl
  | cons j l ih =>
    obtain ⟨hj, hl⟩ := List.forall_mem_cons.1 hx
    rw [List.foldl_cons, ih hl, Function.update_of_ne hj]

/-- What a loop stores at different places is there at its end. -/
theorem foldl_update (hk : Function.Injective k) (hl : l.Nodup) (hi : i ∈ l) :
    l.foldl (fun f i => Function.update f (k i) (v i)) f (k i) = v i := by
  induction l generalizing f with
  | nil => exact absurd hi List.not_mem_nil
  | cons j l ih =>
    obtain ⟨hj, hl⟩ := List.nodup_cons.1 hl
    rw [List.foldl_cons]
    rcases List.mem_cons.1 hi with rfl | hi
    · rw [foldl_update_of_forall_ne fun y hy heq => hj (by rwa [hk heq]), Function.update_self]
    · exact ih hl hi

end Fold

/-- The node behind the first `n` queues of a new pool. -/
def nodeAt (n : ℕ) : Node := if h : n < 256 then .msgQueue ⟨n, h⟩ else .header

theorem init_next_header (m : Manager) : m.init.next .header = some (nodeAt 0) := by
  rw [Manager.init]
  dsimp only
  rw [Function.update_of_ne (by simp), foldl_update_of_forall_ne (by simp), Function.update_self]
  rfl

theorem init_next_msgQueue (m : Manager) (i : Fin 256) :
    m.init.next (.msgQueue i) = some (nodeAt (i + 1)) := by
  rw [Manager.init]
  dsimp only
  induction i using Fin.lastCases with
  | last => exact Function.update_self ..
  | cast i =>
    have hk : Function.Injective fun i : Fin 255 => Node.msgQueue i.castSucc := fun i j hij =>
      Fin.castSucc_injective 255 (Node.msgQueue.inj hij)
    have hne : Node.msgQueue i.castSucc ≠ Node.msgQueue 255 := fun heq =>
      Fin.castSucc_ne_last i (Node.msgQueue.inj heq)
    have hlt : (i.castSucc : ℕ) + 1 < 256 := Nat.succ_lt_succ i.isLt
    rw [Function.update_of_ne hne, foldl_update hk (List.nodup_finRange 255) (List.mem_finRange i),
      nodeAt, dif_pos hlt]
    rfl

/-- All queues are on the ring, in their order. -/
theorem init_ring (m : Manager) : m.init.Ring (List.finRange 256) := by
  have hdrop : ∀ k n, n + k = 256 → Chain m.init.next (some (nodeAt n))
      (((List.finRange 256).drop n).map Node.msgQueue) (some .header) := by
    intro k
    induction k with
    | zero =>
      rintro n rfl
      rw [List.drop_of_length_le (by simp)]
      rfl
    | succ k ih =>
      intro n hn
      have hlt : n < 256 := by omega
      rw [List.drop_eq_getElem_cons (by simpa using hlt), List.getElem_finRange, nodeAt,
        dif_pos hlt]
      refine ⟨rfl, ?_⟩
      rw [init_next_msgQueue]
      exact ih (n + 1) (by omega)
  rw [Manager.Ring, init_next_header]
  have hring := hdrop 256 0 rfl
  rwa [List.drop_zero] at hring

theorem pool_start : Pool start.manager start.taken where
  ring := ⟨List.finRange 256, init_ring _, List.nodup_finRange 256, by simp [start, State.taken]⟩
  nodup := List.nodup_nil
  usedCount := rfl

/-- In every state of a run, the ring holds the queues that are not taken, each once, no queue is
    taken twice, and `usedCount` is right; a call that finds no memory returns null, with the ring
    and the counter as they were. -/
theorem pool_of_run (hrun : Run State.step State.Allowed start s) :
    Pool s.manager s.taken ∧ ∀ maxMsgSize msgCount, ∃ m',
      s.manager.allocate maxMsgSize msgCount false = some (none, m') ∧
        m'.next = s.manager.next ∧ m'.usedCount = s.manager.usedCount := by
  have h : Pool s.manager s.taken := by
    refine hrun.invariant (I := fun s => Pool s.manager s.taken) (fun hs ha hstep => ?_) pool_start
    obtain ⟨s', hs', hpool⟩ := hs.step ha
    obtain rfl := Option.some.inj (hs'.symm.trans hstep)
    exact hpool
  exact ⟨h, h.allocate_false⟩

/-- A queue is handed out, and another taken while a thread prepares it. -/
theorem pool_two : ∃ s, Run State.step State.Allowed start s ∧
    (start.step (.allocate 16 4 true)).bind (fun s => s.step .take) = some s ∧
      Pool s.manager s.taken := by
  obtain ⟨s₁, hs₁, hpool⟩ := pool_start.step (a := .allocate 16 4 true) trivial
  obtain ⟨s₂, hs₂, -⟩ := hpool.step (a := .take) trivial
  have hrun₁ : Run State.step State.Allowed start s₁ :=
    .tail .refl (i := .allocate 16 4 true) trivial hs₁
  have hrun : Run State.step State.Allowed start s₂ := hrun₁.tail (i := .take) trivial hs₂
  exact ⟨s₂, hrun, by rw [hs₁, Option.bind_some, hs₂], (pool_of_run hrun).1⟩

end MsgQueueManager

end DemoOs
