import DemoOs.Lib.Chain
import DemoOs.Lib.Family
import DemoOs.Lib.Run
import DemoOs.Types
import Mathlib.Order.Interval.Finset.Nat

/-!
# The interrupt handler table

`connectInterruptVector`, `disconnectInterruptVector` and `solveInterurpt` (`interrut.cpp`). Each of
the 128 vectors has a list of descriptors in memory of the heap, linked by `next`, the last handler
connected being the first one.

What the table is for is said by `Table`: the handlers of every vector, most recent first, and what
is called and freed at every operation. The lists of descriptors represent such a table
(`Represents`), and the operations do what they do there (`Represents.step`): the counter
`callbackFunCounter` apart, which no disconnection decrements, so that it is right just if no
handler is ever removed (`handlers_iff`).
-/

namespace DemoOs

namespace Interrupt

/-- A connected handler, with its memory (`none` is the null pointer). -/
structure ExterIntptCallbackDesc where
  next : Option ℕ
  callbackFunc : ℕ
  argument : ℕ
  clearFunc : ℕ

/-- A vector. -/
structure EexterIntptSrcDesc where
  callbackDescHeader : Option ℕ
  interVectorflags : ℕ
  intptCounter : ℕ
  callbackFunCounter : ℕ

/-- The table, and the memory of the descriptors. -/
structure State where
  exterIntptSrcTable : Fin 128 → EexterIntptSrcDesc
  desc : ℕ → ExterIntptCallbackDesc

/-- What is seen of an operation: functions called with an argument, memory freed. -/
inductive Event
  | call (func argument : ℕ)
  | free (p : ℕ)
  deriving DecidableEq

namespace State

/-- The links of the descriptors. -/
def next (s : State) (p : ℕ) : Option ℕ := (s.desc p).next

/-- The descriptor at the first node of the list of a vector. -/
def header (s : State) (vec : Fin 128) : Option ℕ := (s.exterIntptSrcTable vec).callbackDescHeader

def setSrc (s : State) (vec : Fin 128) (f : EexterIntptSrcDesc → EexterIntptSrcDesc) : State :=
  { s with exterIntptSrcTable :=
      Function.update s.exterIntptSrcTable vec (f (s.exterIntptSrcTable vec)) }

def setDesc (s : State) (p : ℕ) (d : ExterIntptCallbackDesc) : State :=
  { s with desc := Function.update s.desc p d }

def setNext (s : State) (p : ℕ) (q : Option ℕ) : State := s.setDesc p { s.desc p with next := q }

/-- `connectInterruptVector`; `newCallbackNode` is what `kheap.allocate` returns. -/
def connectInterruptVector (s : State) (vec : Fin 128)
    (intptServiceRoutine argument clearFunc : ℕ) : Option ℕ → ErrNo × State
  | none => (.ENOMEM, s)
  | some newCallbackNode =>
    let s := s.setSrc vec fun d =>
      { d with interVectorflags := 0, callbackFunCounter := word (d.callbackFunCounter + 1) }
    let s := s.setDesc newCallbackNode ⟨s.header vec, intptServiceRoutine, argument, clearFunc⟩
    (.ENONE, s.setSrc vec fun d =>
      { d with callbackDescHeader := some newCallbackNode, interVectorflags := 1 })

/-- The link to a descriptor is set: that of the one before, or the header if there is none. -/
def relink (s : State) (vec : Fin 128) (pp q : Option ℕ) : State :=
  match pp with
  | some pp => s.setNext pp q
  | none => s.setSrc vec fun d => { d with callbackDescHeader := q }

/-- The loop of `disconnectInterruptVector`, with `pp` and `p`, and `p` at its end. -/
def disconnectLoop (s : State) (vec : Fin 128) (arg : ℕ) :
    ℕ → Option ℕ → Option ℕ → Option (Option ℕ × State)
  | 0, _, _ => none
  | _ + 1, _, none => some (none, s)
  | n + 1, pp, some p =>
    if (s.desc p).argument = arg then some (some p, s.relink vec pp (s.desc p).next)
    else s.disconnectLoop vec arg n (some p) (s.desc p).next

/-- `disconnectInterruptVector`. There are `2^32` addresses: a loop that meets more nodes does not
    end. `kheap.free` of the null pointer does nothing. -/
def disconnectInterruptVector (s : State) (vec : Fin 128) (arg : ℕ) :
    Option (List Event × State) := do
  let s := s.setSrc vec fun d => { d with interVectorflags := 0 }
  let (p, s) ← s.disconnectLoop vec arg (2 ^ 32) none (s.header vec)
  some (p.toList.map .free, s)

/-- The loop of `solveInterurpt`. -/
def solveLoop (s : State) : ℕ → Option ℕ → Option (List Event)
  | 0, _ => none
  | _ + 1, none => some []
  | n + 1, some p => do
    let d := s.desc p
    let rest ← s.solveLoop n d.next
    some (.call d.callbackFunc d.argument ::
      ((if d.clearFunc ≠ 0 then [.call d.clearFunc d.argument] else []) ++ rest))

/-- `solveInterurpt`. -/
def solveInterurpt (s : State) (vec : Fin 128) : Option (List Event × State) := do
  let s := s.setSrc vec fun d =>
    { d with intptCounter := word (d.intptCounter + 1), interVectorflags := 0 }
  let events ← s.solveLoop (2 ^ 32) (s.header vec)
  some (events, s.setSrc vec fun d => { d with interVectorflags := 1 })

end State

/-- The operations; in between, memory that is not of a descriptor may be written. -/
inductive Op
  | connect (vec : Fin 128) (intptServiceRoutine argument clearFunc : ℕ)
      (newCallbackNode : Option ℕ)
  | disconnect (vec : Fin 128) (arg : ℕ)
  | solve (vec : Fin 128)
  | write (p : ℕ) (d : ExterIntptCallbackDesc)

def State.step (s : State) : Op → Option (List Event × State)
  | .connect vec isr argument clearFunc p =>
    some ([], (s.connectInterruptVector vec isr argument clearFunc p).2)
  | .disconnect vec arg => s.disconnectInterruptVector vec arg
  | .solve vec => s.solveInterurpt vec
  | .write p d => some ([], s.setDesc p d)

/-- Zero-initialised storage. -/
def init : State where
  exterIntptSrcTable _ := ⟨none, 0, 0, 0⟩
  desc _ := ⟨none, 0, 0, 0⟩

/-! ## What the table is for -/

/-- A connected handler, and the memory of its descriptor. -/
structure Handler where
  node : ℕ
  callbackFunc : ℕ
  argument : ℕ
  clearFunc : ℕ
  deriving DecidableEq

/-- A handler is invoked: its function is called, and then the one to clear the interrupt, if
    any. -/
def Handler.events (h : Handler) : List Event :=
  .call h.callbackFunc h.argument ::
    if h.clearFunc ≠ 0 then [.call h.clearFunc h.argument] else []

/-- The handlers connected to every vector, most recent first. -/
abbrev Table := Fin 128 → List Handler

def Table.step (t : Table) : Op → List Event × Table
  | .connect vec isr argument clearFunc (some p) =>
    ([], Function.update t vec (⟨p, isr, argument, clearFunc⟩ :: t vec))
  | .connect _ _ _ _ none => ([], t)
  | .disconnect vec arg =>
    (((t vec).find? (·.argument = arg)).toList.map fun h => .free h.node,
      Function.update t vec ((t vec).eraseP (·.argument = arg)))
  | .solve vec => ((t vec).flatMap Handler.events, t)
  | .write _ _ => ([], t)

/-- Memory the heap gives, or that is written to, is not that of a connected handler. -/
def Table.Fresh (t : Table) : Op → Prop
  | .connect _ _ _ _ (some p) => 0 < p ∧ p < 2 ^ 32 ∧ ∀ vec, ∀ h ∈ t vec, h.node ≠ p
  | .write p _ => ∀ vec, ∀ h ∈ t vec, h.node ≠ p
  | _ => True

/-- A handler is removed. -/
def Table.Removes (t : Table) : Op → Prop
  | .disconnect vec arg => ∃ h ∈ t vec, h.argument = arg
  | _ => False

/-- The code and the table side by side. -/
def step (p : State × Table) (op : Op) : Option (State × Table) :=
  (p.1.step op).map fun r => (r.2, (p.2.step op).2)

/-- An operation returns, calls and frees what it should, and then the counters are right. -/
def Correct (p : State × Table) (op : Op) : Prop :=
  ∃ s', p.1.step op = some ((p.2.step op).1, s') ∧
    ∀ vec, (s'.exterIntptSrcTable vec).callbackFunCounter = ((p.2.step op).2 vec).length

/-! ## The lists of descriptors -/

variable {s s' : State} {t : Table} {vec v : Fin 128} {p q pp : Option ℕ} {arg n a : ℕ}
  {f : EexterIntptSrcDesc → EexterIntptSrcDesc} {d : ExterIntptCallbackDesc}
    {hs l₁ l₂ : List Handler}
  {x : Handler} {op : Op}

namespace State

/-- The handler a descriptor holds. -/
def handler (s : State) (p : ℕ) : Handler :=
  ⟨p, (s.desc p).callbackFunc, (s.desc p).argument, (s.desc p).clearFunc⟩

/-- The counter of a vector. -/
def counter (s : State) (vec : Fin 128) : ℕ := (s.exterIntptSrcTable vec).callbackFunCounter

@[simp] theorem setSrc_desc : (s.setSrc vec f).desc = s.desc := rfl

@[simp] theorem setSrc_next : (s.setSrc vec f).next = s.next := rfl

@[simp] theorem setSrc_handler : (s.setSrc vec f).handler = s.handler := rfl

/-- One entry of the table changes. -/
theorem setSrc_src : (s.setSrc vec f).exterIntptSrcTable v =
    if v = vec then f (s.exterIntptSrcTable vec) else s.exterIntptSrcTable v :=
  Function.update_apply ..

@[simp] theorem setDesc_header : (s.setDesc a d).header = s.header := rfl

@[simp] theorem setDesc_counter : (s.setDesc a d).counter = s.counter := rfl

@[simp] theorem setDesc_desc_self : (s.setDesc a d).desc a = d := Function.update_self ..

/-- The other descriptors are as they were. -/
theorem setDesc_desc_of_ne {b : ℕ} (hne : b ≠ a) : (s.setDesc a d).desc b = s.desc b :=
  Function.update_of_ne hne ..

/-- The links, with that of the descriptor. -/
theorem setDesc_next : (s.setDesc a d).next = Function.update s.next a d.next := by
  funext b
  by_cases hb : b = a
  · subst hb
    rw [next, setDesc_desc_self, Function.update_self]
  · rw [next, setDesc_desc_of_ne hb, Function.update_of_ne hb, next]

/-- The descriptor has the handler. -/
theorem setDesc_handler_self :
    (s.setDesc a d).handler a = ⟨a, d.callbackFunc, d.argument, d.clearFunc⟩ := by
  rw [handler, setDesc_desc_self]

/-- The others have theirs. -/
theorem setDesc_handler_of_ne {b : ℕ} (hne : b ≠ a) :
    (s.setDesc a d).handler b = s.handler b := by
  rw [handler, setDesc_desc_of_ne hne, handler]

/-- Setting a link leaves the handlers alone. -/
theorem setNext_handler : (s.setNext a q).handler = s.handler := by
  funext b
  by_cases hb : b = a
  · subst hb
    rw [setNext, setDesc_handler_self, handler]
  · exact setDesc_handler_of_ne hb

/-- The headers of the lists. -/
theorem setSrc_header : (s.setSrc vec f).header v =
    if v = vec then (f (s.exterIntptSrcTable vec)).callbackDescHeader else s.header v := by
  rw [header, setSrc_src]
  split_ifs <;> rfl

/-- Links do not change handlers. -/
theorem relink_handler : (s.relink vec pp q).handler = s.handler := by
  cases pp with
  | none => rfl
  | some y => exact setNext_handler

/-- Nor counters. -/
theorem relink_counter : (s.relink vec pp q).counter = s.counter := by
  cases pp with
  | none =>
    funext v
    rw [counter, relink, setSrc_src]
    split_ifs with hv
    · subst hv
      rfl
    · rfl
  | some y => rfl

end State

/-- The lists of descriptors hold the handlers of the table. -/
structure Represents (s : State) (t : Table) : Prop where
  chain : ∀ vec, Chain s.next (s.header vec) ((t vec).map Handler.node) none
  handler : ∀ vec, ∀ h ∈ t vec, s.handler h.node = h
  apart : Family.Apart fun vec => (t vec).map Handler.node
  bound : ∀ vec, ∀ h ∈ t vec, 0 < h.node ∧ h.node < 2 ^ 32

/-- There are fewer different numbers than the bound. -/
theorem length_lt_of_nodup {l : List ℕ} (hl : l.Nodup) (hn : 0 < n)
    (h : ∀ x ∈ l, 0 < x ∧ x < n) : l.length < n := by
  have hsub : l.toFinset ⊆ Finset.Ico 1 n := fun x hx =>
    Finset.mem_Ico.2 (h x (List.mem_toFinset.1 hx))
  have hcard := Finset.card_le_card hsub
  rw [List.toFinset_card_of_nodup hl, Nat.card_Ico] at hcard
  omega

/-- There are fewer handlers than addresses. -/
theorem Represents.length_lt (h : Represents s t) (vec : Fin 128) : (t vec).length < 2 ^ 32 := by
  rw [← List.length_map (f := Handler.node)]
  refine length_lt_of_nodup (h.apart.nodup vec) (by decide) fun x hx => ?_
  obtain ⟨y, hy, rfl⟩ := List.mem_map.1 hx
  exact h.bound vec y hy

/-- At first, no vector has a handler. -/
theorem represents_init : Represents init fun _ => [] where
  chain _ := rfl
  handler _ _ hh := absurd hh List.not_mem_nil
  apart := ⟨fun _ => List.nodup_nil, fun hx => absurd hx List.not_mem_nil⟩
  bound _ _ hh := absurd hh List.not_mem_nil

/-- Flags and counters do not matter. -/
theorem Represents.setSrc (h : Represents s t) (vec : Fin 128)
    (hf : ∀ d, (f d).callbackDescHeader = d.callbackDescHeader) :
    Represents (s.setSrc vec f) t := by
  have hheader : (s.setSrc vec f).header = s.header := by
    funext v
    rw [State.setSrc_header]
    split_ifs with hv
    · subst hv
      exact hf _
    · rfl
  exact ⟨fun v => by rw [hheader]; exact h.chain v, h.handler, h.apart, h.bound⟩

/-- What is not the memory of a connected handler may be written. -/
theorem Represents.setDesc (h : Represents s t) (ha : ∀ vec, ∀ x ∈ t vec, x.node ≠ a) :
    Represents (s.setDesc a d) t where
  chain v := by
    rw [State.setDesc_next, State.setDesc_header]
    refine (h.chain v).update (fun hmem => ?_) _
    obtain ⟨x, hx, rfl⟩ := List.mem_map.1 hmem
    exact ha v x hx rfl
  handler v x hx := by rw [State.setDesc_handler_of_ne (ha v x hx), h.handler v x hx]
  apart := h.apart
  bound := h.bound

/-- Handlers are dropped from the lists. -/
theorem Represents.of_sublist {t' : Table} (h : Represents s t) (hsub : ∀ v, (t' v).Sublist (t v))
    (hhandler : s'.handler = s.handler)
    (hc : ∀ v, Chain s'.next (s'.header v) ((t' v).map Handler.node) none) : Represents s' t' where
  chain := hc
  handler v x hx := by rw [hhandler, h.handler v x ((hsub v).subset hx)]
  apart := h.apart.of_sublist fun v => (hsub v).map _
  bound v x hx := h.bound v x ((hsub v).subset hx)

/-! ## The operations -/

/-- The header of a vector is set, to a list of descriptors. -/
theorem Represents.setHeader (h : Represents s t)
    (hf : (f (s.exterIntptSrcTable vec)).callbackDescHeader = p)
    (hc : Chain s.next p (hs.map Handler.node) none)
    (hh : ∀ x ∈ hs, s.handler x.node = x ∧ 0 < x.node ∧ x.node < 2 ^ 32)
    (hap : Family.Apart fun v => (Function.update t vec hs v).map Handler.node) :
    Represents (s.setSrc vec f) (Function.update t vec hs) where
  chain v := by
    rw [State.setSrc_header, State.setSrc_next]
    by_cases hv : v = vec
    · subst hv
      rwa [if_pos rfl, hf, Function.update_self]
    · rw [if_neg hv, Function.update_of_ne hv]
      exact h.chain v
  handler v x hx := by
    by_cases hv : v = vec
    · subst hv
      rw [Function.update_self] at hx
      exact (hh x hx).1
    · rw [Function.update_of_ne hv] at hx
      exact h.handler v x hx
  apart := hap
  bound v x hx := by
    by_cases hv : v = vec
    · subst hv
      rw [Function.update_self] at hx
      exact (hh x hx).2
    · rw [Function.update_of_ne hv] at hx
      exact h.bound v x hx

/-- A handler is put in front of the list of its vector. -/
theorem Represents.connect (h : Represents s t) {isr argument clearFunc : ℕ}
    (hfresh : t.Fresh (.connect vec isr argument clearFunc (some a))) :
    Represents (s.connectInterruptVector vec isr argument clearFunc (some a)).2
      (Function.update t vec (⟨a, isr, argument, clearFunc⟩ :: t vec)) := by
  obtain ⟨hpos, hlt, hne⟩ := hfresh
  have hnot : ∀ v, a ∉ (t v).map Handler.node := fun v hv => by
    obtain ⟨x, hx, hxa⟩ := List.mem_map.1 hv
    exact hne v x hx hxa
  have h₁ : Represents (s.setSrc vec fun d =>
      { d with interVectorflags := 0, callbackFunCounter := word (d.callbackFunCounter + 1) }) t :=
    h.setSrc vec fun _ => rfl
  -- The new descriptor is linked to the first one before the header is set to it.
  rw [State.connectInterruptVector]
  dsimp only
  refine (h₁.setDesc hne).setHeader (p := some a) rfl ⟨rfl, ?_⟩ ?_ ?_
  · rw [State.setDesc_next, Function.update_self]
    exact (h₁.chain vec).update (hnot vec) _
  · refine List.forall_mem_cons.2 ⟨⟨State.setDesc_handler_self, hpos, hlt⟩, fun x hx => ?_⟩
    exact ⟨(h₁.setDesc hne).handler vec x hx, h.bound vec x hx⟩
  · convert h.apart.cons hnot vec using 2 with v
    by_cases hv : v = vec
    · subst hv
      rw [Function.update_self, Function.update_self, List.map_cons]
    · rw [Function.update_of_ne hv, Function.update_of_ne hv]

/-- The loop of `solveInterurpt` invokes the handlers of the list. -/
theorem solveLoop_eq (hc : Chain s.next p (hs.map Handler.node) none)
    (hh : ∀ h ∈ hs, s.handler h.node = h) (hn : hs.length < n) :
    s.solveLoop n p = some (hs.flatMap Handler.events) := by
  induction hs generalizing p n with
  | nil =>
    obtain ⟨n, rfl⟩ := Nat.exists_eq_succ_of_ne_zero (Nat.ne_zero_of_lt hn)
    obtain rfl : p = none := hc
    rfl
  | cons x hs ih =>
    obtain ⟨n, rfl⟩ := Nat.exists_eq_succ_of_ne_zero (Nat.ne_zero_of_lt hn)
    obtain ⟨rfl, hc⟩ := hc
    obtain ⟨hx, hh⟩ := List.forall_mem_cons.1 hh
    have hrest := ih hc hh (Nat.lt_of_succ_lt_succ hn)
    rw [State.next] at hrest
    rw [State.solveLoop, hrest, List.flatMap_cons, Handler.events, ← hx]
    rfl

/-- A descriptor has the argument of its handler. -/
theorem argument_eq (hx : s.handler x.node = x) : (s.desc x.node).argument = x.argument :=
  congrArg Handler.argument hx

/-- The loop of `disconnectInterruptVector`, when no handler has the argument. -/
theorem disconnectLoop_of_forall (hc : Chain s.next p (hs.map Handler.node) none)
    (hh : ∀ h ∈ hs, s.handler h.node = h) (hn : hs.length < n) (hno : ∀ h ∈ hs, h.argument ≠ arg) :
    s.disconnectLoop vec arg n pp p = some (none, s) := by
  induction hs generalizing p pp n with
  | nil =>
    obtain ⟨n, rfl⟩ := Nat.exists_eq_succ_of_ne_zero (Nat.ne_zero_of_lt hn)
    obtain rfl : p = none := hc
    rfl
  | cons x hs ih =>
    obtain ⟨n, rfl⟩ := Nat.exists_eq_succ_of_ne_zero (Nat.ne_zero_of_lt hn)
    obtain ⟨rfl, hc⟩ := hc
    obtain ⟨hx, hh⟩ := List.forall_mem_cons.1 hh
    obtain ⟨hxa, hno⟩ := List.forall_mem_cons.1 hno
    rw [← argument_eq hx] at hxa
    rw [State.disconnectLoop, if_neg hxa]
    exact ih hc hh (Nat.lt_of_succ_lt_succ hn) hno

/-- The loop stops at the first handler with the argument, with `pp` at the one before. -/
theorem disconnectLoop_of_append (hc : Chain s.next p ((l₁ ++ x :: l₂).map Handler.node) none)
    (hh : ∀ h ∈ l₁ ++ x :: l₂, s.handler h.node = h) (hn : (l₁ ++ x :: l₂).length < n)
    (hno : ∀ h ∈ l₁, h.argument ≠ arg) (hx : x.argument = arg) :
    s.disconnectLoop vec arg n pp p =
      some (some x.node, s.relink vec ((l₁.getLast?.map Handler.node).or pp) (s.next x.node)) := by
  induction l₁ generalizing p pp n with
  | nil =>
    obtain ⟨n, rfl⟩ := Nat.exists_eq_succ_of_ne_zero (Nat.ne_zero_of_lt hn)
    obtain ⟨rfl, -⟩ := hc
    rw [← argument_eq (hh x List.mem_cons_self)] at hx
    rw [State.disconnectLoop, if_pos hx]
    rfl
  | cons y l₁ ih =>
    obtain ⟨n, rfl⟩ := Nat.exists_eq_succ_of_ne_zero (Nat.ne_zero_of_lt hn)
    obtain ⟨rfl, hc⟩ := hc
    obtain ⟨hy, hh⟩ := List.forall_mem_cons.1 hh
    obtain ⟨hya, hno⟩ := List.forall_mem_cons.1 hno
    rw [← argument_eq hy] at hya
    rw [State.disconnectLoop, if_neg hya, ← State.next, ih hc hh (Nat.lt_of_succ_lt_succ hn) hno]
    rcases List.eq_nil_or_concat l₁ with rfl | ⟨l₁, z, rfl⟩
    · rfl
    · rw [List.concat_eq_append, ← List.cons_append, List.getLast?_append, List.getLast?_append]
      rfl

/-- The descriptor of `x` is taken out of its list. -/
theorem Represents.relink (h : Represents s t) (ht : t vec = l₁ ++ x :: l₂) :
    Represents (s.relink vec (l₁.getLast?.map Handler.node) (s.next x.node))
      (Function.update t vec (l₁ ++ l₂)) := by
  have hsub : ∀ v, (Function.update t vec (l₁ ++ l₂) v).Sublist (t v) := by
    intro v
    by_cases hv : v = vec
    · subst hv
      rw [Function.update_self, ht]
      exact (List.Sublist.refl l₁).append (List.sublist_cons_self x l₂)
    · rw [Function.update_of_ne hv]
  have hc := h.chain vec
  have hnd := h.apart.nodup vec
  refine h.of_sublist hsub State.relink_handler fun v => ?_
  rcases List.eq_nil_or_concat l₁ with rfl | ⟨l₀, y, rfl⟩
  · -- The first descriptor: the header is set.
    rw [List.getLast?_nil, Option.map_none, State.relink, State.setSrc_header, State.setSrc_next]
    by_cases hv : v = vec
    · subst hv
      rw [if_pos rfl, Function.update_self]
      rw [ht] at hc
      exact hc.2
    · rw [if_neg hv, Function.update_of_ne hv]
      exact h.chain v
  · -- Otherwise the link of the descriptor before `x`, which is on no other list.
    rw [List.concat_eq_append] at ht ⊢
    rw [List.getLast?_concat, Option.map_some, State.relink, State.setNext, State.setDesc_header,
      State.setDesc_next]
    rw [List.append_assoc, List.singleton_append] at ht ⊢
    by_cases hv : v = vec
    · subst hv
      rw [Function.update_self, List.map_append, List.map_cons]
      rw [ht, List.map_append, List.map_cons, List.map_cons] at hc hnd
      exact hc.unlink hnd
    · rw [Function.update_of_ne hv]
      refine (h.chain v).update (fun hmem => hv (h.apart.unique hmem ?_)) _
      exact List.mem_map_of_mem (ht ▸ List.mem_append_right l₀ List.mem_cons_self)

/-- The counters after an operation. -/
def State.counterAfter (s : State) : Op → Fin 128 → ℕ
  | .connect vec _ _ _ (some _) => Function.update s.counter vec (word (s.counter vec + 1))
  | _ => s.counter

/-- One counter changes. -/
theorem State.setSrc_counter : (s.setSrc vec f).counter =
    Function.update s.counter vec (f (s.exterIntptSrcTable vec)).callbackFunCounter := by
  funext v
  rw [counter, setSrc_src, Function.update_apply]
  split_ifs <;> rfl

/-- No counter changes. -/
theorem State.setSrc_counter_eq (hf : ∀ d, (f d).callbackFunCounter = d.callbackFunCounter) :
    (s.setSrc vec f).counter = s.counter := by
  rw [setSrc_counter, hf, ← counter, Function.update_eq_self]

/-- A handler more is counted. -/
theorem State.connect_counter (isr argument clearFunc : ℕ) :
    (s.connectInterruptVector vec isr argument clearFunc (some a)).2.counter =
      Function.update s.counter vec (word (s.counter vec + 1)) := by
  rw [connectInterruptVector]
  dsimp only
  refine Eq.trans (setSrc_counter_eq ?_) ?_
  · exact fun _ => rfl
  · rw [setDesc_counter]
    exact setSrc_counter

/-- `disconnectInterruptVector` frees the handler it should, if there is one. -/
theorem Represents.disconnect (h : Represents s t) (vec : Fin 128) (arg : ℕ) :
    ∃ s', s.disconnectInterruptVector vec arg = some ((t.step (.disconnect vec arg)).1, s') ∧
      Represents s' (t.step (.disconnect vec arg)).2 ∧ s'.counter = s.counter := by
  -- The flags are cleared first, whether there is a handler or not.
  have h₁ : Represents (s.setSrc vec fun d => { d with interVectorflags := 0 }) t :=
    h.setSrc vec fun _ => rfl
  have hcounter : (s.setSrc vec fun d => { d with interVectorflags := 0 }).counter = s.counter :=
    State.setSrc_counter_eq fun _ => rfl
  rw [State.disconnectInterruptVector, Table.step]
  generalize (s.setSrc vec fun d => { d with interVectorflags := 0 }) = s₁ at h₁ hcounter
  cases hfind : (t vec).find? (·.argument = arg) with
  | none =>
    have hno : ∀ x ∈ t vec, x.argument ≠ arg := by simpa using hfind
    refine ⟨s₁, ?_, ?_, hcounter⟩
    · dsimp only
      rw [disconnectLoop_of_forall (h₁.chain vec) (h₁.handler vec) (h.length_lt vec) hno]
      rfl
    · dsimp only
      rw [List.eraseP_of_forall_not (by simpa using hno), Function.update_eq_self]
      exact h₁
  | some x =>
    obtain ⟨hx, l₁, l₂, ht, hno⟩ := List.find?_eq_some_iff_append.1 hfind
    have hno : ∀ y ∈ l₁, y.argument ≠ arg := by simpa using hno
    have hchain := h₁.chain vec
    have hhandler := h₁.handler vec
    have hlength := h.length_lt vec
    rw [ht] at hchain hhandler hlength
    refine ⟨s₁.relink vec (l₁.getLast?.map Handler.node) (s₁.next x.node), ?_, ?_,
      State.relink_counter.trans hcounter⟩
    · dsimp only
      rw [disconnectLoop_of_append hchain hhandler hlength hno (of_decide_eq_true hx),
        Option.or_none]
      rfl
    · dsimp only
      rw [ht, List.eraseP_append_right _ (by simpa using hno),
        List.eraseP_cons_of_pos (p := fun y : Handler => y.argument = arg) hx]
      exact h₁.relink ht

/-- `solveInterurpt` invokes the handlers of the vector. -/
theorem Represents.solve (h : Represents s t) (vec : Fin 128) :
    ∃ s', s.solveInterurpt vec = some ((t vec).flatMap Handler.events, s') ∧ Represents s' t ∧
      s'.counter = s.counter := by
  have h₁ : Represents (s.setSrc vec fun d =>
      { d with intptCounter := word (d.intptCounter + 1), interVectorflags := 0 }) t :=
    h.setSrc vec fun _ => rfl
  refine ⟨_, ?_, h₁.setSrc (f := fun d => { d with interVectorflags := 1 }) vec fun _ => rfl, ?_⟩
  · rw [State.solveInterurpt, solveLoop_eq (h₁.chain vec) (h₁.handler vec) (h.length_lt vec)]
    rfl
  · refine Eq.trans (State.setSrc_counter_eq ?_) (State.setSrc_counter_eq ?_) <;> exact fun _ => rfl

/-- Every operation returns, calls and frees what it should, and the lists of descriptors represent
    the table afterwards. -/
theorem Represents.step (h : Represents s t) (hfresh : t.Fresh op) :
    ∃ s', s.step op = some ((t.step op).1, s') ∧ Represents s' (t.step op).2 ∧
      s'.counter = s.counterAfter op := by
  cases op with
  | connect vec isr argument clearFunc p =>
    cases p with
    | none => exact ⟨s, rfl, h, rfl⟩
    | some a => exact ⟨_, rfl, h.connect hfresh, State.connect_counter isr argument clearFunc⟩
  | disconnect vec arg => exact h.disconnect vec arg
  | solve vec => exact h.solve vec
  | write p d => exact ⟨_, rfl, h.setDesc hfresh, rfl⟩

/-! ## The counters -/

/-- The lists represent the table, and the counters are right. -/
def Counted (p : State × Table) : Prop :=
  Represents p.1 p.2 ∧ ∀ vec, p.1.counter vec = (p.2 vec).length

/-- What a connection adds to the length of a list, as to the counter. -/
theorem Represents.length_connect (h : Represents s t) {isr argument clearFunc : ℕ}
    (hfresh : t.Fresh (.connect vec isr argument clearFunc (some a)))
    (hs : ∀ v, s.counter v = (t v).length) (v : Fin 128) :
    Function.update s.counter vec (word (s.counter vec + 1)) v =
      (Function.update t vec (⟨a, isr, argument, clearFunc⟩ :: t vec) v).length := by
  by_cases hv : v = vec
  · subst hv
    have hlt := (h.connect hfresh).length_lt v
    rw [Function.update_self, List.length_cons] at hlt
    rw [Function.update_self, Function.update_self, List.length_cons, hs, word_eq hlt]
  · rw [Function.update_of_ne hv, Function.update_of_ne hv, hs]

/-- Where the counters are right, they are right after an operation just if it removes no
    handler. -/
theorem Counted.counter_iff {p : State × Table} (h : Counted p) (hfresh : p.2.Fresh op) :
    (∀ v, p.1.counterAfter op v = ((p.2.step op).2 v).length) ↔ ¬p.2.Removes op := by
  obtain ⟨hrep, hs⟩ := h
  cases op with
  | connect vec isr argument clearFunc p =>
    refine iff_of_true (fun v => ?_) not_false
    cases p with
    | none => exact hs v
    | some a => exact hrep.length_connect hfresh hs v
  | disconnect vec arg =>
    constructor
    · rintro hcount ⟨x, hx, hxa⟩
      have hlen := List.length_eraseP_of_mem (p := (·.argument = arg)) hx (decide_eq_true hxa)
      have hpos := List.length_pos_of_mem hx
      have hvec : p.1.counter vec = (Function.update p.2 vec _ vec).length := hcount vec
      rw [hs, Function.update_self, hlen] at hvec
      omega
    · intro hno v
      have hkeep : (p.2 vec).eraseP (·.argument = arg) = p.2 vec :=
        List.eraseP_of_forall_not fun x hx hxa => hno ⟨x, hx, of_decide_eq_true hxa⟩
      change p.1.counter v =
        (Function.update p.2 vec ((p.2 vec).eraseP (·.argument = arg)) v).length
      rw [hkeep, Function.update_eq_self, hs]
  | solve vec => exact iff_of_true hs not_false
  | write p d => exact iff_of_true hs not_false

/-- A call is as it should be unless it removes a handler. -/
theorem correct_iff {p : State × Table} (h : Counted p) (hfresh : p.2.Fresh op) :
    Correct p op ↔ ¬p.2.Removes op := by
  obtain ⟨s', hstep, -, hcounter⟩ := h.1.step hfresh
  rw [← h.counter_iff hfresh, ← hcounter]
  constructor
  · rintro ⟨s'', hs'', hcount⟩
    obtain rfl : s' = s'' := by simpa [hstep] using hs''
    exact hcount
  · exact fun hcount => ⟨s', hstep, hcount⟩

/-- As long as none is removed, the counters count. -/
theorem Counted.step {p p' : State × Table} (h : Counted p) (hfresh : p.2.Fresh op)
    (hno : ¬p.2.Removes op) (hstep : Interrupt.step p op = some p') : Counted p' := by
  obtain ⟨s', hs', hrep, hcounter⟩ := h.1.step hfresh
  rw [Interrupt.step, hs', Option.map_some] at hstep
  obtain rfl := Option.some.inj hstep
  exact ⟨hrep, fun v => by rw [hcounter, (h.counter_iff hfresh).2 hno]⟩

/-- Whatever is done, the lists represent the table. -/
theorem represents_of_run {p : State × Table}
    (h : Run step (fun p op => p.2.Fresh op) (init, fun _ => []) p) : Represents p.1 p.2 := by
  refine h.invariant (I := fun p => Represents p.1 p.2) (fun hrep hfresh hstep =>
    ?_) represents_init
  obtain ⟨s', hs', hrep', -⟩ := hrep.step hfresh
  rw [step, hs', Option.map_some] at hstep
  obtain rfl := Option.some.inj hstep
  exact hrep'

/-- Every operation of a history calls and frees what it should, and leaves the counters right, just
    if no operation removes a handler. -/
theorem handlers_iff {ops : List Op}
    (hops : Admissible step (fun p op => p.2.Fresh op) (init, fun _ => []) ops) :
    Admissible step Correct (init, fun _ => []) ops ↔
      Admissible step (fun p op => ¬p.2.Removes op) (init, fun _ => []) ops :=
  Admissible.iff (I := Counted) (fun h hfresh => correct_iff h hfresh)
    (fun h hfresh hno hstep => h.step hfresh hno hstep) ⟨represents_init, fun _ => rfl⟩ hops

/-- Two handlers of one vector, both of which are called. -/
theorem handlers_two : Admissible step Correct (init, fun _ => [])
    [.connect 5 100 200 0 (some 4096), .connect 5 101 201 102 (some 8192), .solve 5,
      .disconnect 5 202] := by
  refine (handlers_iff ?_).2 ?_
  · refine ⟨⟨by decide, by decide, by decide⟩, fun p hp => ?_⟩
    obtain rfl := Option.some.inj hp
    refine ⟨⟨by decide, by decide, by decide⟩,
      fun p _ => ⟨trivial, fun p _ => ⟨trivial, fun p _ => ?_⟩⟩⟩
    trivial
  · refine ⟨not_false, fun p hp => ⟨not_false, fun p hp' => ⟨not_false, fun p hp'' => ⟨?_, ?_⟩⟩⟩⟩
    · obtain rfl := Option.some.inj hp
      obtain rfl := Option.some.inj hp'
      obtain ⟨r, -, rfl⟩ := Option.map_eq_some_iff.1 hp''
      change ¬∃ h ∈ Function.update (Function.update (fun _ => []) 5 [⟨4096, 100, 200, 0⟩]) 5
        [⟨8192, 101, 201, 102⟩, ⟨4096, 100, 200, 0⟩] (5 : Fin 128), Handler.argument h = 202
      decide
    · exact fun _ _ => trivial

/-- Once the only handler of a vector is removed, the counter is still 1. -/
theorem not_correct_disconnect : ¬Admissible step Correct (init, fun _ => [])
    [.connect 5 100 200 0 (some 4096), .disconnect 5 200] := by
  intro h
  obtain ⟨s', hs', hcount⟩ := (h.2 _ rfl).1
  have hval : (State.step (init.connectInterruptVector 5 100 200 0 (some 4096)).2
      (.disconnect 5 200)).map (fun r => r.2.counter 5) = some 1 := rfl
  rw [State.step] at hval
  have hone : s'.counter 5 = 1 := by
    rw [← Option.some_inj, ← hval]
    exact (congrArg (Option.map fun r => r.2.counter 5) hs').symm
  exact absurd (hone.symm.trans (hcount 5)) (by decide)

end Interrupt

end DemoOs
