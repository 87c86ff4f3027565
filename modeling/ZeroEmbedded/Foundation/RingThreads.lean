import ZeroEmbedded.Foundation.RingBuffer

/-!
# A ring shared by a producer and a consumer

The calls of both ends are programs over loads and stores of the counters and
over copies from and to the slots. The contract of the producer is that it only
appends to the queue, the contract of the consumer that it only removes from
its front. Calls that keep the contract make the ring a lossless queue under
every interleaving.

## Implementation notes

The proof of a call follows its text: the two loads, the copies, the store
that publishes or releases. There is one rule for each.
-/

namespace ZeroEmbedded.Foundation

open Threads (Completed)

/-- The two ends of a ring. -/
inductive RingEnd
  | producer
  | consumer
  deriving DecidableEq

/-- The accesses to a shared ring. -/
inductive RingCommand (α : Type)
  | loadHead
  | loadTail
  | storeHead (counter : Nat)
  | storeTail (counter : Nat)
  | readSlots (idx n : Nat)
  | writeSlots (idx : Nat) (items : List α)

namespace RingCommand

variable {α : Type}

/-- What an access returns. -/
def Reply : RingCommand α → Type
  | loadHead => Nat
  | loadTail => Nat
  | storeHead _ => Unit
  | storeTail _ => Unit
  | readSlots _ _ => List α
  | writeSlots _ _ => Unit

/-- The effect of an access. -/
def handle : Handler (RingCommand α) Reply (RingBuffer α)
  | loadHead, r => (r.head, r)
  | loadTail, r => (r.tail, r)
  | storeHead counter, r => ((), { r with head := counter })
  | storeTail counter, r => ((), { r with tail := counter })
  | readSlots idx n, r => ((r.slots.drop idx).take n, r)
  | writeSlots idx items, r => ((), { r with slots := RingBuffer.writeAt r.slots idx items })

/-- A call sees the state of the ring when it loads a counter. -/
def isLoad : RingCommand α → Bool
  | loadHead => true
  | loadTail => true
  | _ => false

end RingCommand

/-- Programs over the accesses to a ring. -/
abbrev RingProgram (α β : Type) := Program (RingCommand α) RingCommand.Reply β

namespace RingProgram

variable {α : Type}

def loadHead : RingProgram α Nat := .request RingCommand.loadHead

def loadTail : RingProgram α Nat := .request RingCommand.loadTail

def storeHead (counter : Nat) : RingProgram α Unit := .request (RingCommand.storeHead counter)

def storeTail (counter : Nat) : RingProgram α Unit := .request (RingCommand.storeTail counter)

def readSlots (idx n : Nat) : RingProgram α (List α) := .request (RingCommand.readSlots idx n)

def writeSlots (idx : Nat) (items : List α) : RingProgram α Unit :=
  .request (RingCommand.writeSlots idx items)

end RingProgram

/-- The calls on a ring and their specification. -/
structure RingCalls (α Op Res : Type) where
  size : RingSize
  side : Op → RingEnd
  program : Op → RingProgram α Res
  /-- What holds of every element in the queue. -/
  element : α → Prop
  accepted : Completed (RingBuffer α) Op Res → List α
  delivered : Completed (RingBuffer α) Op Res → List α
  /-- The specification of a completed call. -/
  meets : Completed (RingBuffer α) Op Res → Prop

namespace RingCalls

variable {α Op Res : Type} (P : RingCalls α Op Res)

/-- The two ends as threads on the ring. -/
def threads : Threads RingEnd (RingCommand α) RingCommand.Reply (RingBuffer α) Op Res where
  handler := RingCommand.handle
  observes := RingCommand.isLoad
  owner := P.side
  program := P.program

/-- The elements that a step accepts. -/
def acceptedBy (e : Option (Completed (RingBuffer α) Op Res)) : List α := e.elim [] P.accepted

/-- The elements that a step delivers. -/
def deliveredBy (e : Option (Completed (RingBuffer α) Op Res)) : List α := e.elim [] P.delivered

/-- The ring stores a queue of proper elements. -/
structure Stores (r : RingBuffer α) (q : List α) : Prop where
  holds : RingBuffer.Holds P.size r q
  elements : ∀ x ∈ q, P.element x

/-- The slot belongs to an element of the queue. -/
def Live (r : RingBuffer α) (slot : Nat) : Prop :=
  ∃ q, RingBuffer.Holds P.size r q ∧ ∃ i < q.length, (r.tail + i) % P.size.capacity = slot

/-- The producer appends items to the queue. -/
structure Produces (r r' : RingBuffer α) (items : List α) : Prop where
  tail_eq : r'.tail = r.tail
  stores : ∀ q, P.Stores r q → P.Stores r' (q ++ items)

/-- The consumer removes items from the front of the queue. -/
structure Consumes (r r' : RingBuffer α) (items : List α) : Prop where
  head_eq : r'.head = r.head
  slots_eq : r'.slots = r.slots
  stores : ∀ q, P.Stores r q → ∃ rest, q = items ++ rest ∧ P.Stores r' rest

/-- Copies stay inside the slots, reads touch stored elements and writes touch free slots. -/
def Allowed (r : RingBuffer α) : RingCommand α → Prop
  | .readSlots idx n => idx + n ≤ P.size.capacity ∧ ∀ k < n, P.Live r (idx + k)
  | .writeSlots idx items =>
      idx + items.length ≤ P.size.capacity ∧ ∀ k < items.length, ¬ P.Live r (idx + k)
  | _ => True

/-- What a step of one end does to the queue. -/
def Guarantees (i : RingEnd) (e : Option (Completed (RingBuffer α) Op Res))
    (r r' : RingBuffer α) : Prop :=
  (∀ d, e = some d → P.meets d) ∧
    match i with
    | .producer => P.Produces r r' (P.acceptedBy e) ∧ P.deliveredBy e = []
    | .consumer => P.Consumes r r' (P.deliveredBy e) ∧ P.acceptedBy e = []

/-- What an end relies on: the other one only appends, or only removes. -/
def Relies (i : RingEnd) (r r' : RingBuffer α) : Prop :=
  match i with
  | .producer => ∃ items, P.Consumes r r' items
  | .consumer => ∃ items, P.Produces r r' items

variable {P} {r r' r'' s t seen : RingBuffer α} {q items more : List α} {op : Op}

theorem Produces.refl (r : RingBuffer α) : P.Produces r r [] :=
  ⟨rfl, fun q hq => by rwa [List.append_nil]⟩

theorem Produces.trans (h : P.Produces r r' items) (h' : P.Produces r' r'' more) :
    P.Produces r r'' (items ++ more) where
  tail_eq := h'.tail_eq.trans h.tail_eq
  stores q hq := by
    rw [← List.append_assoc]
    exact h'.stores _ (h.stores q hq)

theorem Consumes.refl (r : RingBuffer α) : P.Consumes r r [] := ⟨rfl, rfl, fun q hq => ⟨q, rfl, hq⟩⟩

theorem Consumes.trans (h : P.Consumes r r' items) (h' : P.Consumes r' r'' more) :
    P.Consumes r r'' (items ++ more) where
  head_eq := h'.head_eq.trans h.head_eq
  slots_eq := h'.slots_eq.trans h.slots_eq
  stores q hq := by
    obtain ⟨mid, rfl, hmid⟩ := h.stores q hq
    obtain ⟨rest, rfl, hrest⟩ := h'.stores mid hmid
    exact ⟨rest, (List.append_assoc ..).symm, hrest⟩

variable (P) in
/-- The contract of the two ends. -/
def contract : Threads.Contract RingEnd (RingCommand α) (RingBuffer α) Op Res where
  inv r := ∃ q, P.Stores r q
  rely := P.Relies
  allowed c r := P.Allowed r c
  guarantee := P.Guarantees
  rely_refl i r := by
    cases i with
    | producer => exact ⟨[], Consumes.refl r⟩
    | consumer => exact ⟨[], Produces.refl r⟩
  rely_trans i r s t := by
    cases i with
    | producer =>
        rintro ⟨items, h⟩ ⟨more, h'⟩
        exact ⟨items ++ more, h.trans h'⟩
    | consumer =>
        rintro ⟨items, h⟩ ⟨more, h'⟩
        exact ⟨items ++ more, h.trans h'⟩
  keeps i e r r' := by
    rintro ⟨q, hq⟩ ⟨-, h⟩
    cases i with
    | producer => exact ⟨_, h.1.stores q hq⟩
    | consumer =>
        obtain ⟨rest, -, hrest⟩ := h.1.stores q hq
        exact ⟨rest, hrest⟩
  supports i j e r r' := by
    rintro hij - ⟨-, h⟩
    cases i <;> cases j
    · exact absurd rfl hij
    · exact ⟨_, h.1⟩
    · exact ⟨_, h.1⟩
    · exact absurd rfl hij

/-- A run of the contract is a lossless queue, and every completed call meets its
specification. -/
theorem fifo {es : List (Option (Completed (RingBuffer α) Op Res))}
    (run : Run P.contract.Guaranteed r es r') (hq : P.Stores r q) :
    ∃ q', P.Stores r' q' ∧
      q ++ es.flatMap P.acceptedBy = es.flatMap P.deliveredBy ++ q' ∧
      ∀ d, some d ∈ es → P.meets d := by
  refine run.invariant (fun r' es => ∃ q', P.Stores r' q' ∧
    q ++ es.flatMap P.acceptedBy = es.flatMap P.deliveredBy ++ q' ∧
    ∀ d, some d ∈ es → P.meets d) ⟨q, hq, by simp, by simp⟩ ?_
  rintro t es e u ⟨q', hq', heq, hall⟩ ⟨-, i, hmeets, hstep⟩
  have hall' : ∀ d, some d ∈ es ++ [e] → P.meets d := by
    intro d hd
    rcases List.mem_append.mp hd with hd | hd
    · exact hall d hd
    · exact hmeets d (List.mem_singleton.mp hd).symm
  cases i with
  | producer =>
      obtain ⟨hprod, hnone⟩ := hstep
      refine ⟨q' ++ P.acceptedBy e, hprod.stores q' hq', ?_, hall'⟩
      rw [List.flatMap_append, List.flatMap_append, List.flatMap_singleton,
        List.flatMap_singleton, hnone, List.append_nil, ← List.append_assoc, heq,
        List.append_assoc]
  | consumer =>
      obtain ⟨hcons, hnone⟩ := hstep
      obtain ⟨rest, rfl, hrest⟩ := hcons.stores q' hq'
      refine ⟨rest, hrest, ?_, hall'⟩
      rw [List.flatMap_append, List.flatMap_append, List.flatMap_singleton,
        List.flatMap_singleton, hnone, List.append_nil, heq, List.append_assoc]

/-- Calls that keep the contract make the ring a lossless queue under every interleaving. -/
theorem lossless (starts : ∀ op s, P.contract.inv s → P.contract.Starts P.threads op s)
    (hq : P.Stores r q) {es : List (Option (Completed (RingBuffer α) Op Res))}
    {cfg : Threads.Config RingEnd (RingCommand α) RingCommand.Reply (RingBuffer α) Op Res}
    (run : Run (Threads.Step P.threads) (Threads.idle r) es cfg) :
    ∃ q', P.Stores cfg.shared q' ∧
      q ++ es.flatMap P.acceptedBy = es.flatMap P.deliveredBy ++ q' ∧
      (∀ d, some d ∈ es → P.meets d) ∧ P.contract.Safe cfg := by
  obtain ⟨hguar, -, hsafe⟩ := Threads.Contract.refines starts ⟨q, hq⟩ run
  obtain ⟨q', hq', heq, hall⟩ := fifo hguar hq
  exact ⟨q', hq', heq, hall, hsafe⟩

section Rules

variable {p : RingProgram α Res} {a : Res} {n h idx j counter : Nat}
  {chunk : List α}

/-- A step of the producer that completes nothing and appends nothing. -/
theorem Guarantees.quiet_producer {e : Option (Completed (RingBuffer α) Op Res)} (he : e = none)
    (hprod : P.Produces r r' []) : P.Guarantees .producer e r r' := by
  subst he
  exact ⟨fun d hd => (nomatch hd), hprod, rfl⟩

/-- A step of the consumer that completes nothing and removes nothing. -/
theorem Guarantees.quiet_consumer {e : Option (Completed (RingBuffer α) Op Res)} (he : e = none)
    (hcons : P.Consumes r r' []) : P.Guarantees .consumer e r r' := by
  subst he
  exact ⟨fun d hd => (nomatch hd), hcons, rfl⟩

/-- The producer's loads see one state, since only the producer moves the head. -/
theorem producer_loads {k : Nat → Nat → RingProgram α Res}
    (hk : ∀ t q, P.Stores t q → P.contract.After P.threads .producer op (k t.head t.tail) t t t) :
    P.contract.Conforms P.threads .producer op
      (.call .loadHead fun head => .call .loadTail fun tail => k head tail) s seen := by
  apply Threads.Contract.Conforms.command
  intro t _ _
  refine ⟨trivial, Guarantees.quiet_producer rfl (Produces.refl t), ?_⟩
  apply Threads.Contract.Conforms.command
  rintro u ⟨items, hcons⟩ ⟨q, hq⟩
  have hafter := hk u q hq
  rw [hcons.head_eq] at hafter
  exact ⟨trivial, hafter⟩

/-- The consumer's loads see one state, since only the consumer moves the tail. -/
theorem consumer_loads {k : Nat → Nat → RingProgram α Res}
    (hk : ∀ t q, P.Stores t q → P.contract.After P.threads .consumer op (k t.tail t.head) t t t) :
    P.contract.Conforms P.threads .consumer op
      (.call .loadTail fun tail => .call .loadHead fun head => k tail head) s seen := by
  apply Threads.Contract.Conforms.command
  intro t _ _
  refine ⟨trivial, Guarantees.quiet_consumer rfl (Consumes.refl t), ?_⟩
  apply Threads.Contract.Conforms.command
  rintro u ⟨items, hprod⟩ ⟨q, hq⟩
  have hafter := hk u q hq
  rw [hprod.tail_eq] at hafter
  exact ⟨trivial, hafter⟩

/-- A consumer that loads the head first may find more elements behind it afterwards. -/
theorem consumer_peeks {k : Nat → Nat → RingProgram α Res}
    (hk : ∀ t u q items, P.Stores t q → P.Produces t u items →
      P.contract.After P.threads .consumer op (k t.head u.tail) u u u) :
    P.contract.Conforms P.threads .consumer op
      (.call .loadHead fun head => .call .loadTail fun tail => k head tail) s seen := by
  apply Threads.Contract.Conforms.command
  rintro t _ ⟨q, hq⟩
  refine ⟨trivial, Guarantees.quiet_consumer rfl (Consumes.refl t), ?_⟩
  apply Threads.Contract.Conforms.command
  rintro u ⟨items, hprod⟩ -
  exact ⟨trivial, hk t u q items hq hprod⟩

/-- A call of the producer that returns without a change. -/
theorem producer_returns (hmeets : P.meets ⟨op, a, t⟩) (hacc : P.accepted ⟨op, a, t⟩ = [])
    (hdel : P.delivered ⟨op, a, t⟩ = []) :
    P.contract.After P.threads .producer op (.ret a) t t t := by
  refine ⟨⟨?_, ?_, hdel⟩, trivial⟩
  · rintro d ⟨⟩
    exact hmeets
  · change P.Produces t t (P.accepted ⟨op, a, t⟩)
    rw [hacc]
    exact Produces.refl t

/-- A call of the consumer that returns without a change. -/
theorem consumer_returns (hmeets : P.meets ⟨op, a, t⟩) (hacc : P.accepted ⟨op, a, t⟩ = [])
    (hdel : P.delivered ⟨op, a, t⟩ = []) :
    P.contract.After P.threads .consumer op (.ret a) t t t := by
  refine ⟨⟨?_, ?_, hacc⟩, trivial⟩
  · rintro d ⟨⟩
    exact hmeets
  · change P.Consumes t t (P.delivered ⟨op, a, t⟩)
    rw [hdel]
    exact Consumes.refl t

/-- A call of the producer that goes on with a command. -/
theorem producer_continues (hnone : (Threads.settle op t p).2 = none)
    (hp : P.contract.Conforms P.threads .producer op p t t) :
    P.contract.After P.threads .producer op p t t t :=
  ⟨Guarantees.quiet_producer hnone (Produces.refl t), hp⟩

/-- A call of the consumer that goes on with a command. -/
theorem consumer_continues (hnone : (Threads.settle op t p).2 = none)
    (hp : P.contract.Conforms P.threads .consumer op p t t) :
    P.contract.After P.threads .consumer op p t t t :=
  ⟨Guarantees.quiet_consumer hnone (Consumes.refl t), hp⟩

/-- What the producer has staged stays staged while the consumer removes elements. -/
theorem Consumes.staged (hcons : P.Consumes r r' more) (hq : P.Stores r q)
    (hstaged : RingBuffer.Staged P.size h n items r) : RingBuffer.Staged P.size h n items r' where
  head_eq := hcons.head_eq.trans hstaged.head_eq
  fits q' hq' := by
    obtain ⟨rest, rfl, hrest⟩ := hcons.stores q hq
    have hfits := hstaged.fits _ hq.holds
    rw [List.length_append] at hfits
    rw [hq'.unique hrest.holds]
    omega
  slot i hi := by
    rw [hcons.slots_eq]
    exact hstaged.slot i hi

/-- The front of the queue stays its front while the producer appends elements. -/
theorem Produces.front (hprod : P.Produces r r' more) (hq : P.Stores r q)
    (hfront : RingBuffer.Front P.size h items r) : RingBuffer.Front P.size h items r' where
  tail_eq := hprod.tail_eq.trans hfront.tail_eq
  front q' hq' := by
    rw [hq'.unique (hprod.stores q hq).holds]
    exact (hfront.front q hq.holds).trans (List.prefix_append q more)

/-- Copying a chunk into free slots. -/
theorem producer_writes {k : Unit → RingProgram α Res}
    (hq : P.Stores s q) (hstaged : RingBuffer.Staged P.size h n items s)
    (hfree : items.length + chunk.length ≤ n)
    (hidx : idx = (h + items.length) % P.size.capacity)
    (hend : idx + chunk.length ≤ P.size.capacity)
    (hnone : (Threads.settle op seen (k ())).2 = none)
    (hk : ∀ t q, P.Stores t q → RingBuffer.Staged P.size h n (items ++ chunk) t →
      P.contract.Conforms P.threads .producer op (k ()) t seen) :
    P.contract.Conforms P.threads .producer op (.call (.writeSlots idx chunk) k) s seen := by
  apply Threads.Contract.Conforms.command
  rintro t ⟨removed, hcons⟩ ⟨q', hq'⟩
  have hstaged' := hcons.staged hq hstaged
  obtain ⟨hholds, hfilled⟩ := hq'.holds.fill hstaged' hfree hidx hend
  refine ⟨⟨hend, ?_⟩, Guarantees.quiet_producer hnone ⟨rfl, ?_⟩, ?_⟩
  · rintro i hi ⟨q₂, hq₂, m, hm, hslot⟩
    have hfits := hstaged'.fits q₂ hq₂
    have hidx' : idx = (t.tail + (q₂.length + items.length)) % P.size.capacity := by
      rw [hidx, ← hstaged'.head_eq, hq₂.head_eq, P.size.advance_add_mod, Nat.add_assoc]
    exact RingBuffer.slot_outside hidx' hend (by omega) (by omega) hi hslot
  · intro q₂ hq₂
    rw [List.append_nil, hq₂.holds.unique hq'.holds]
    exact ⟨hholds, hq'.elements⟩
  · exact hk _ q' ⟨hholds, hq'.elements⟩ hfilled

/-- The store that publishes the staged items. -/
theorem producer_publishes (hq : P.Stores s q) (hstaged : RingBuffer.Staged P.size h n items s)
    (hn : items.length ≤ n) (hcounter : counter = P.size.advance h items.length)
    (helem : ∀ x ∈ items, P.element x)
    (hmeets : P.meets ⟨op, a, seen⟩) (hacc : P.accepted ⟨op, a, seen⟩ = items)
    (hdel : P.delivered ⟨op, a, seen⟩ = []) :
    P.contract.Conforms P.threads .producer op
      (.call (.storeHead counter) fun _ => .ret a) s seen := by
  subst hcounter
  apply Threads.Contract.Conforms.command
  rintro t ⟨removed, hcons⟩ -
  have hstaged' := hcons.staged hq hstaged
  refine ⟨trivial, ⟨?_, ⟨rfl, ?_⟩, hdel⟩, trivial⟩
  · rintro d ⟨⟩
    exact hmeets
  · intro q' hq'
    change P.Stores _ (q' ++ P.accepted ⟨op, a, seen⟩)
    rw [hacc]
    refine ⟨hq'.holds.publish hstaged' hn, ?_⟩
    intro x hx
    exact (List.mem_append.mp hx).elim (hq'.elements x) (helem x)

/-- Copying a chunk out of slots whose elements are known. -/
theorem consumer_reads {k : List α → RingProgram α Res}
    (hq : P.Stores s q) (hfront : RingBuffer.Front P.size h items s) (hn : j + n ≤ items.length)
    (hidx : idx = (h + j) % P.size.capacity) (hend : idx + n ≤ P.size.capacity)
    (hnone : (Threads.settle op seen (k ((items.drop j).take n))).2 = none)
    (hk : ∀ t q, P.Stores t q → RingBuffer.Front P.size h items t →
      P.contract.Conforms P.threads .consumer op (k ((items.drop j).take n)) t seen) :
    P.contract.Conforms P.threads .consumer op (.call (.readSlots idx n) k) s seen := by
  apply Threads.Contract.Conforms.command
  rintro t ⟨added, hprod⟩ ⟨q', hq'⟩
  have hfront' := hprod.front hq hfront
  have hread := hq'.holds.read hfront' hn hidx hend
  have hlen := (hfront'.front q' hq'.holds).length_le
  refine ⟨⟨hend, ?_⟩, ?_⟩
  · intro i hi
    refine ⟨q', hq'.holds, j + i, by omega, ?_⟩
    rw [hfront'.tail_eq, ← Nat.add_assoc, hidx]
    exact P.size.slot_add (by omega)
  · change P.contract.After P.threads .consumer op (k ((t.slots.drop idx).take n)) t t seen
    rw [hread]
    exact ⟨Guarantees.quiet_consumer hnone (Consumes.refl t), hk t q' hq' hfront'⟩

/-- The store that releases the elements that were read. -/
theorem consumer_releases (hq : P.Stores s q) (hfront : RingBuffer.Front P.size h items s)
    (hcounter : counter = P.size.advance h items.length)
    (hmeets : P.meets ⟨op, a, seen⟩) (hdel : P.delivered ⟨op, a, seen⟩ = items)
    (hacc : P.accepted ⟨op, a, seen⟩ = []) :
    P.contract.Conforms P.threads .consumer op
      (.call (.storeTail counter) fun _ => .ret a) s seen := by
  subst hcounter
  apply Threads.Contract.Conforms.command
  rintro t ⟨added, hprod⟩ -
  have hfront' := hprod.front hq hfront
  refine ⟨trivial, ⟨?_, ⟨rfl, rfl, ?_⟩, hacc⟩, trivial⟩
  · rintro d ⟨⟩
    exact hmeets
  · intro q' hq'
    obtain ⟨rest, rfl⟩ := hfront'.front q' hq'.holds
    refine ⟨rest, ?_, ?_⟩
    · change items ++ rest = P.delivered ⟨op, a, seen⟩ ++ rest
      rw [hdel]
    · refine ⟨hq'.holds.release hfront'.tail_eq, ?_⟩
      intro x hx
      exact hq'.elements x (List.mem_append_right _ hx)

end Rules

end RingCalls

end ZeroEmbedded.Foundation
