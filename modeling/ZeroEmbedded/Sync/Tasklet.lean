import ZeroEmbedded.Foundation.RingBuffer
import ZeroEmbedded.Foundation.Runs
import ZeroEmbedded.Types

/-!
# Deferred work posted from interrupts

`fw_tasklet_dispatch_one` takes one access after the other, and a post may come
between any two of them. A handler that it calls may post and may dispatch, so
the calls under way form a stack. Posts come from an interrupt or from the
handler that runs; either way the whole post lies between two accesses.

## Implementation notes

Executions are numbered in the order in which they start. The number is a ghost
of the model and does not influence any step.
-/

namespace ZeroEmbedded.Tasklet

open Foundation

variable {T : Target}

/-- `FW_NULL`. -/
def fwNull : Nat := 0

/-- `fw_tasklet_item_t`; the handler and the context are addresses. -/
structure FwTaskletItem where
  handler : Nat
  context : Nat
  arg : UInt32
  deriving DecidableEq, Repr, Inhabited

/-- The constant members of `fw_tasklet_queue_t`, as `fw_tasklet_queue_init` sets them. -/
structure FwTaskletQueue (T : Target) where
  capacity : Nat
  mask : Nat
  capacity_pow : ∃ k, capacity = 2 ^ k
  capacity_lt : capacity < T.sizeMod
  mask_eq : mask = capacity - 1

/-- `fw_tasklet_queue_init`. -/
def fwTaskletQueueInit (storage : List FwTaskletItem) (capacity : Nat)
    (hsize : capacity < T.sizeMod) :
    Except FwStatus (FwTaskletQueue T × RingBuffer FwTaskletItem) :=
  if hpos : capacity = 0 then .error .errInvalidArg
  else if hpow : capacity &&& (capacity - 1) = 0 then
    .ok (⟨capacity, capacity - 1, PowerOfTwo.pow_of_and_pred hpos hpow, hsize,
      Nat.pred_eq_sub_one⟩, ⟨storage, 0, 0⟩)
  else .error .errInvalidArg

/-- `fw_tasklet_post`. -/
def fwTaskletPost (q : FwTaskletQueue T) (r : RingBuffer FwTaskletItem) (handler context : Nat)
    (arg : UInt32) : FwStatus × RingBuffer FwTaskletItem :=
  if handler = fwNull then (.errInvalidArg, r)
  else if T.sizeSub r.head r.tail ≥ q.capacity then (.errBufferOverflow, r)
  else
    let idx := r.head &&& q.mask
    (.ok, { r with
      slots := RingBuffer.writeAt r.slots idx [⟨handler, context, arg⟩]
      head := T.size (r.head + 1) })

/-- The next access of `fw_tasklet_dispatch_one` and the locals it has loaded. -/
inductive DispatchPoint
  | loadTail
  | loadHead (tail : Nat)
  | readHandler (tail : Nat)
  | readContext (tail handler : Nat)
  | readArg (tail handler context : Nat)
  | storeTail (tail : Nat) (item : FwTaskletItem)
  | callHandler (item : FwTaskletItem)
  | returns (result : Bool)
  deriving DecidableEq

/-- The slot that `storage[tail & mask]` selects. -/
def slotAt (q : FwTaskletQueue T) (r : RingBuffer FwTaskletItem) (tail : Nat) : FwTaskletItem :=
  r.slots.getD (tail &&& q.mask) default

/-- One access of `fw_tasklet_dispatch_one`; none remains when it calls or returns. -/
def dispatchStep (q : FwTaskletQueue T) (r : RingBuffer FwTaskletItem) :
    DispatchPoint → Option (DispatchPoint × RingBuffer FwTaskletItem)
  | .loadTail => some (.loadHead r.tail, r)
  | .loadHead tail => some (if tail = r.head then .returns false else .readHandler tail, r)
  | .readHandler tail => some (.readContext tail (slotAt q r tail).handler, r)
  | .readContext tail handler => some (.readArg tail handler (slotAt q r tail).context, r)
  | .readArg tail handler context =>
      some (.storeTail tail ⟨handler, context, (slotAt q r tail).arg⟩, r)
  | .storeTail tail item =>
      some (if item.handler ≠ fwNull then .callHandler item else .returns true,
        { r with tail := T.size (tail + 1) })
  | .callHandler _ => none
  | .returns _ => none

/-- A call of `fw_tasklet_dispatch_one`: at an access, or inside the handler it has called. -/
inductive Frame
  | dispatching (point : DispatchPoint)
  | running (execution : Nat)
  deriving DecidableEq

/-- The queue and the calls under way, the innermost one first. -/
structure Config where
  ring : RingBuffer FwTaskletItem
  stack : List Frame
  starts : Nat

/-- No call is under way. -/
def idle (r : RingBuffer FwTaskletItem) : Config := ⟨r, [], 0⟩

/-- What a step shows. -/
inductive Event
  | posted (item : FwTaskletItem) (status : FwStatus)
  | called
  | accessed
  | started (item : FwTaskletItem)
  | finished (execution : Nat)
  | returned (result : Bool)
  deriving DecidableEq

/-- A call may begin in the main loop and in a handler. -/
def mayCall : List Frame → Prop
  | [] => True
  | .running _ :: _ => True
  | .dispatching _ :: _ => False

/-- The steps of posts and dispatches. -/
inductive Step (q : FwTaskletQueue T) : Config → Event → Config → Prop
  | post (cfg : Config) (item : FwTaskletItem) :
      Step q cfg (.posted item (fwTaskletPost q cfg.ring item.handler item.context item.arg).1)
        { cfg with ring := (fwTaskletPost q cfg.ring item.handler item.context item.arg).2 }
  | call (cfg : Config) (free : mayCall cfg.stack) :
      Step q cfg .called { cfg with stack := .dispatching .loadTail :: cfg.stack }
  | access (cfg : Config) (point point' : DispatchPoint) (below : List Frame)
      (ring' : RingBuffer FwTaskletItem) (top : cfg.stack = .dispatching point :: below)
      (next : dispatchStep q cfg.ring point = some (point', ring')) :
      Step q cfg .accessed { cfg with ring := ring', stack := .dispatching point' :: below }
  | start (cfg : Config) (item : FwTaskletItem) (below : List Frame)
      (top : cfg.stack = .dispatching (.callHandler item) :: below) :
      Step q cfg (.started item)
        { cfg with stack := .running cfg.starts :: below, starts := cfg.starts + 1 }
  | finish (cfg : Config) (execution : Nat) (below : List Frame)
      (top : cfg.stack = .running execution :: below) :
      Step q cfg (.finished execution)
        { cfg with stack := .dispatching (.returns true) :: below }
  | ret (cfg : Config) (result : Bool) (below : List Frame)
      (top : cfg.stack = .dispatching (.returns result) :: below) :
      Step q cfg (.returned result) { cfg with stack := below }

/-- The post that a step accepts. -/
def Event.accepted : Event → List FwTaskletItem
  | .posted item .ok => [item]
  | _ => []

/-- The execution that a step starts. -/
def Event.starting : Event → List FwTaskletItem
  | .started item => [item]
  | _ => []

/-- The accepted posts in order. -/
def accepted (es : List Event) : List FwTaskletItem := es.flatMap Event.accepted

/-- The executions in the order in which they started. -/
def started (es : List Event) : List FwTaskletItem := es.flatMap Event.starting

/-- The item whose slot is released and whose handler is about to be called. -/
def inFlight : List Frame → List FwTaskletItem
  | .dispatching (.callHandler item) :: _ => [item]
  | _ => []

namespace FwTaskletQueue

variable (q : FwTaskletQueue T)

def size : RingSize := RingSize.ofPow q.capacity_pow T.sizeMod_pow q.capacity_lt

/-- The posts that wait for their execution. -/
def pending (r : RingBuffer FwTaskletItem) : List FwTaskletItem := RingBuffer.content q.size r

/-- What a dispatch knows of the queue at its next access. -/
def Knows (r : RingBuffer FwTaskletItem) : DispatchPoint → Prop
  | .loadTail => True
  | .loadHead tail => tail = r.tail
  | .readHandler tail => ∃ item, RingBuffer.Front q.size tail [item] r
  | .readContext tail handler =>
      ∃ item, RingBuffer.Front q.size tail [item] r ∧ handler = item.handler
  | .readArg tail handler context =>
      ∃ item, RingBuffer.Front q.size tail [item] r ∧ handler = item.handler ∧
        context = item.context
  | .storeTail tail item => RingBuffer.Front q.size tail [item] r
  | .callHandler _ => True
  | .returns _ => True

/-- The calls below the innermost one are inside their handlers. -/
def Nested (r : RingBuffer FwTaskletItem) : List Frame → Prop
  | [] => True
  | .dispatching point :: below => q.Knows r point ∧ ∀ f ∈ below, ∃ n, f = .running n
  | .running _ :: below => ∀ f ∈ below, ∃ n, f = .running n

/-- What holds after the steps `es` while `queue` is pending. -/
structure Sound (cfg : Config) (es : List Event) (queue : List FwTaskletItem) : Prop where
  holds : RingBuffer.Holds q.size cfg.ring queue
  order : started es ++ inFlight cfg.stack ++ queue = accepted es
  handlers : ∀ item ∈ queue, item.handler ≠ fwNull
  nested : q.Nested cfg.ring cfg.stack
  starts : cfg.starts = (started es).length
  finished : ∀ n < cfg.starts, .finished n ∈ es ∨ .running n ∈ cfg.stack

end FwTaskletQueue

variable {q : FwTaskletQueue T} {r r' : RingBuffer FwTaskletItem} {cfg cfg' : Config} {e : Event}
  {es : List Event} {queue : List FwTaskletItem}

/-- `fw_tasklet_queue_init` accepts the powers of two and gives an empty queue. -/
theorem fwTaskletQueueInit_fits {storage : List FwTaskletItem} {capacity : Nat}
    {hsize : capacity < T.sizeMod} (hstorage : storage.length = capacity)
    (hinit : fwTaskletQueueInit storage capacity hsize = .ok (q, r)) :
    RingBuffer.Fits q.size r ∧ q.pending r = [] := by
  rw [fwTaskletQueueInit] at hinit
  split at hinit
  · cases hinit
  split at hinit
  · obtain ⟨hq, rfl⟩ := Prod.mk.inj (Except.ok.inj hinit)
    apply RingBuffer.fits_empty
    rw [hstorage, ← hq]
    rfl
  · cases hinit

theorem accepted_snoc (es : List Event) (e : Event) :
    accepted (es ++ [e]) = accepted es ++ e.accepted := by
  rw [accepted, accepted, List.flatMap_append, List.flatMap_singleton]

theorem started_snoc (es : List Event) (e : Event) :
    started (es ++ [e]) = started es ++ e.starting := by
  rw [started, started, List.flatMap_append, List.flatMap_singleton]

/-- A post fails exactly when its handler is missing or the queue is full, and else appends its
item. -/
theorem fwTaskletPost_cases (h : RingBuffer.Holds q.size r queue) (item : FwTaskletItem) :
    (item.handler = fwNull ∧
      fwTaskletPost q r item.handler item.context item.arg = (.errInvalidArg, r)) ∨
    (item.handler ≠ fwNull ∧ queue.length = q.capacity ∧
      fwTaskletPost q r item.handler item.context item.arg = (.errBufferOverflow, r)) ∨
    (item.handler ≠ fwNull ∧ queue.length < q.capacity ∧ ∃ r',
      fwTaskletPost q r item.handler item.context item.arg = (.ok, r') ∧
      r'.tail = r.tail ∧ RingBuffer.Holds q.size r' (queue ++ [item])) := by
  have hcount : T.sizeSub r.head r.tail = queue.length := h.distance
  have hle : queue.length ≤ q.capacity := h.length_le
  rw [fwTaskletPost, hcount]
  by_cases hnull : item.handler = fwNull
  · rw [if_pos hnull]
    exact Or.inl ⟨hnull, rfl⟩
  rw [if_neg hnull]
  by_cases hfull : queue.length ≥ q.capacity
  · rw [if_pos hfull]
    exact Or.inr (Or.inl ⟨hnull, Nat.le_antisymm hle hfull, rfl⟩)
  · rw [if_neg hfull]
    refine Or.inr (Or.inr ⟨hnull, Nat.lt_of_not_le hfull, _, rfl, rfl, ?_⟩)
    have hmask : r.head &&& q.mask = r.head % q.size.capacity := by
      rw [q.mask_eq]
      exact PowerOfTwo.and_mask q.capacity_pow r.head
    have hslot : r.head % q.size.capacity < q.size.capacity := Nat.mod_lt _ q.size.capacity_pos
    have hstart : RingBuffer.Staged q.size r.head (q.capacity - queue.length) [] r := h.staged
    have hfilled : RingBuffer.Holds q.size
        { r with slots := RingBuffer.writeAt r.slots (r.head &&& q.mask) [item] } queue ∧
        RingBuffer.Staged q.size r.head (q.capacity - queue.length) ([] ++ [item])
          { r with slots := RingBuffer.writeAt r.slots (r.head &&& q.mask) [item] } := by
      apply h.fill hstart
      · change 0 + 1 ≤ _
        omega
      · exact hmask
      · rw [hmask]
        exact hslot
    exact hfilled.1.publish hfilled.2 (by change 1 ≤ _; omega)

/-- The front of the queue stays its front while posts append to it. -/
theorem front_append {tail : Nat} {items more : List FwTaskletItem}
    (hfront : RingBuffer.Front q.size tail items r) (h : RingBuffer.Holds q.size r queue)
    (htail : r'.tail = r.tail) (h' : RingBuffer.Holds q.size r' (queue ++ more)) :
    RingBuffer.Front q.size tail items r' where
  tail_eq := htail.trans hfront.tail_eq
  front queue' hqueue' := by
    rw [hqueue'.unique h']
    exact (hfront.front queue h).trans (List.prefix_append queue more)

/-- A dispatch with an access to come holds no item outside of the queue. -/
theorem inFlight_of_dispatchStep {point : DispatchPoint}
    {next : DispatchPoint × RingBuffer FwTaskletItem} (below : List Frame)
    (hnext : dispatchStep q r point = some next) : inFlight (.dispatching point :: below) = [] := by
  cases point with
  | callHandler item => cases hnext
  | _ => rfl

/-- What a dispatch knows stays true while posts append to the queue. -/
theorem FwTaskletQueue.Knows.append {point : DispatchPoint} {more : List FwTaskletItem}
    (hknows : q.Knows r point) (h : RingBuffer.Holds q.size r queue) (htail : r'.tail = r.tail)
    (h' : RingBuffer.Holds q.size r' (queue ++ more)) : q.Knows r' point := by
  cases point with
  | loadTail => trivial
  | loadHead tail => exact hknows.trans htail.symm
  | readHandler tail =>
      obtain ⟨item, hfront⟩ := hknows
      exact ⟨item, front_append hfront h htail h'⟩
  | readContext tail handler =>
      obtain ⟨item, hfront, hhandler⟩ := hknows
      exact ⟨item, front_append hfront h htail h', hhandler⟩
  | readArg tail handler context =>
      obtain ⟨item, hfront, hfields⟩ := hknows
      exact ⟨item, front_append hfront h htail h', hfields⟩
  | storeTail tail item => exact front_append hknows h htail h'
  | callHandler item => trivial
  | returns result => trivial

/-- The slot at the tail holds the oldest item. -/
theorem slotAt_front {tail : Nat} {item : FwTaskletItem} (h : RingBuffer.Holds q.size r queue)
    (hfront : RingBuffer.Front q.size tail [item] r) : slotAt q r tail = item := by
  obtain ⟨rest, rfl⟩ := hfront.front queue h
  have hslot := h.slot 0 (Nat.succ_pos _)
  rw [hfront.tail_eq, Nat.add_zero] at hslot
  rw [slotAt, q.mask_eq, PowerOfTwo.and_mask q.capacity_pow, List.getD_eq_getElem?_getD]
  change (r.slots[tail % q.size.capacity]?).getD default = item
  rw [hslot]
  rfl

/-- One access of a dispatch: it only learns about the queue, or it releases the oldest item. -/
theorem dispatchStep_cases {point point' : DispatchPoint} (h : RingBuffer.Holds q.size r queue)
    (hhandlers : ∀ item ∈ queue, item.handler ≠ fwNull) (hknows : q.Knows r point)
    (hstep : dispatchStep q r point = some (point', r')) :
    (r' = r ∧ q.Knows r point' ∧ (∀ item, point' ≠ .callHandler item) ∧
      (point' = .returns false → queue = [])) ∨
    ∃ item rest, queue = item :: rest ∧ point' = .callHandler item ∧
      RingBuffer.Holds q.size r' rest := by
  cases point with
  | loadTail =>
      cases hstep
      exact Or.inl ⟨rfl, rfl, nofun, nofun⟩
  | loadHead tail =>
      cases hstep
      left
      by_cases hempty : tail = r.head
      · rw [if_pos hempty]
        exact ⟨rfl, trivial, nofun, fun _ => h.empty_iff.mp (hknows.symm.trans hempty)⟩
      · rw [if_neg hempty]
        refine ⟨rfl, ?_, nofun, nofun⟩
        cases queue with
        | nil => exact absurd (hknows.trans (h.empty_iff.mpr rfl)) hempty
        | cons item rest =>
            have hfront := h.front 1
            rw [← hknows] at hfront
            exact ⟨item, hfront⟩
  | readHandler tail =>
      obtain ⟨item, hfront⟩ := hknows
      cases hstep
      refine Or.inl ⟨rfl, ⟨item, hfront, ?_⟩, nofun, nofun⟩
      rw [slotAt_front h hfront]
  | readContext tail handler =>
      obtain ⟨item, hfront, rfl⟩ := hknows
      cases hstep
      refine Or.inl ⟨rfl, ⟨item, hfront, rfl, ?_⟩, nofun, nofun⟩
      rw [slotAt_front h hfront]
  | readArg tail handler context =>
      obtain ⟨item, hfront, rfl, rfl⟩ := hknows
      cases hstep
      refine Or.inl ⟨rfl, ?_, nofun, nofun⟩
      rw [slotAt_front h hfront]
      exact hfront
  | storeTail tail item =>
      obtain ⟨rest, rfl⟩ := hknows.front queue h
      have hitem : item.handler ≠ fwNull := hhandlers item List.mem_cons_self
      cases hstep
      refine Or.inr ⟨item, rest, rfl, if_pos hitem, ?_⟩
      exact h.release hknows.tail_eq
  | callHandler item => cases hstep
  | returns result => cases hstep

/-- Posting changes what the calls under way know of the queue only by appending to it. -/
theorem FwTaskletQueue.Nested.append {stack : List Frame} {more : List FwTaskletItem}
    (hnested : q.Nested r stack) (h : RingBuffer.Holds q.size r queue) (htail : r'.tail = r.tail)
    (h' : RingBuffer.Holds q.size r' (queue ++ more)) : q.Nested r' stack := by
  cases stack with
  | nil => trivial
  | cons frame below =>
      cases frame with
      | dispatching point => exact ⟨hnested.1.append h htail h', hnested.2⟩
      | running n => exact hnested

/-- Calls that are all inside their handlers. -/
theorem FwTaskletQueue.Nested.of_running {stack : List Frame}
    (h : ∀ f ∈ stack, ∃ n, f = .running n) : q.Nested r stack ∧ inFlight stack = [] := by
  cases stack with
  | nil => exact ⟨trivial, rfl⟩
  | cons frame below =>
      obtain ⟨n, rfl⟩ := h frame List.mem_cons_self
      exact ⟨fun f hf => h f (List.mem_cons_of_mem _ hf), rfl⟩

/-- Where a call may begin, all calls under way are inside their handlers. -/
theorem FwTaskletQueue.Nested.running {stack : List Frame} (hnested : q.Nested r stack)
    (hfree : mayCall stack) : ∀ f ∈ stack, ∃ n, f = .running n := by
  cases stack with
  | nil => exact fun f hf => (List.not_mem_nil hf).elim
  | cons frame below =>
      cases frame with
      | dispatching point => exact hfree.elim
      | running n =>
          intro f hf
          rcases List.mem_cons.mp hf with rfl | hbelow
          · exact ⟨n, rfl⟩
          · exact hnested f hbelow

namespace FwTaskletQueue.Sound

variable {queue' : List FwTaskletItem}

/-- What a step must show to keep the invariant. -/
theorem next (h : q.Sound cfg es queue) (hholds : RingBuffer.Holds q.size cfg'.ring queue')
    (horder : e.starting ++ inFlight cfg'.stack ++ queue' =
      inFlight cfg.stack ++ queue ++ e.accepted)
    (hhandlers : ∀ item ∈ queue', item.handler ≠ fwNull) (hnested : q.Nested cfg'.ring cfg'.stack)
    (hstarts : cfg'.starts = cfg.starts + e.starting.length)
    (hkeeps : ∀ n, .running n ∈ cfg.stack → e = .finished n ∨ .running n ∈ cfg'.stack)
    (hbegins : ∀ n, cfg.starts ≤ n → n < cfg'.starts → .running n ∈ cfg'.stack) :
    q.Sound cfg' (es ++ [e]) queue' where
  holds := hholds
  order := by
    rw [started_snoc, accepted_snoc, ← h.order, List.append_assoc, List.append_assoc,
      ← List.append_assoc e.starting, horder, List.append_assoc, List.append_assoc,
      List.append_assoc]
  handlers := hhandlers
  nested := hnested
  starts := by
    rw [started_snoc, List.length_append, hstarts, h.starts]
  finished n hn := by
    by_cases hold : n < cfg.starts
    · rcases h.finished n hold with hdone | hrunning
      · exact Or.inl (List.mem_append_left _ hdone)
      · rcases hkeeps n hrunning with rfl | hstill
        · exact Or.inl (List.mem_append_right _ (List.mem_singleton_self _))
        · exact Or.inr hstill
    · exact Or.inr (hbegins n (Nat.not_lt.mp hold) hn)

/-- A post keeps the invariant; it appends its item or leaves the queue alone. -/
theorem post (h : q.Sound cfg es queue) (item : FwTaskletItem) :
    ∃ queue', q.Sound
      { cfg with ring := (fwTaskletPost q cfg.ring item.handler item.context item.arg).2 }
      (es ++ [.posted item (fwTaskletPost q cfg.ring item.handler item.context item.arg).1])
      queue' := by
  have hnothing : ∀ n, cfg.starts ≤ n → n < cfg.starts → Frame.running n ∈ cfg.stack :=
    fun n hle hlt => absurd hlt (Nat.not_lt.mpr hle)
  obtain ⟨-, hpost⟩ | ⟨-, -, hpost⟩ | ⟨hnull, -, r', hpost, htail, hholds⟩ :=
    fwTaskletPost_cases h.holds item
  · rw [hpost]
    exact ⟨queue, h.next h.holds (List.append_nil _).symm h.handlers h.nested rfl
      (fun n hn => Or.inr hn) hnothing⟩
  · rw [hpost]
    exact ⟨queue, h.next h.holds (List.append_nil _).symm h.handlers h.nested rfl
      (fun n hn => Or.inr hn) hnothing⟩
  · rw [hpost]
    refine ⟨queue ++ [item], h.next hholds (List.append_assoc ..).symm ?_
      (h.nested.append h.holds htail hholds) rfl (fun n hn => Or.inr hn) hnothing⟩
    intro x hx
    rcases List.mem_append.mp hx with hx | hx
    · exact h.handlers x hx
    · rw [List.mem_singleton.mp hx]
      exact hnull

/-- An access of the innermost dispatch keeps the invariant. -/
theorem access {point point' : DispatchPoint} {below : List Frame}
    {ring' : RingBuffer FwTaskletItem}
    (h : q.Sound cfg es queue) (htop : cfg.stack = .dispatching point :: below)
    (hnext : dispatchStep q cfg.ring point = some (point', ring')) :
    ∃ queue', q.Sound { cfg with ring := ring', stack := .dispatching point' :: below }
      (es ++ [.accessed]) queue' := by
  have hnested := h.nested
  rw [htop] at hnested
  have hbefore : inFlight cfg.stack = [] := by
    rw [htop]
    exact inFlight_of_dispatchStep below hnext
  have hkeeps : ∀ n, Frame.running n ∈ cfg.stack →
      Event.accessed = .finished n ∨ Frame.running n ∈ Frame.dispatching point' :: below := by
    intro n hn
    rw [htop] at hn
    exact Or.inr (List.mem_cons_of_mem _ ((List.mem_cons.mp hn).resolve_left nofun))
  have hnothing : ∀ n, cfg.starts ≤ n → n < cfg.starts →
      Frame.running n ∈ Frame.dispatching point' :: below :=
    fun n hle hlt => absurd hlt (Nat.not_lt.mpr hle)
  obtain ⟨rfl, hknows, hcall, -⟩ | ⟨item, rest, rfl, rfl, hholds⟩ :=
    dispatchStep_cases h.holds h.handlers hnested.1 hnext
  · have hafter : inFlight (.dispatching point' :: below) = [] := by
      cases point' with
      | callHandler item => exact absurd rfl (hcall item)
      | _ => rfl
    refine ⟨queue, h.next h.holds ?_ h.handlers ⟨hknows, hnested.2⟩ rfl hkeeps hnothing⟩
    rw [hbefore]
    change [] ++ inFlight (.dispatching point' :: below) ++ queue = _
    rw [hafter]
    exact (List.append_nil _).symm
  · refine ⟨rest, h.next hholds ?_ ?_ ⟨trivial, hnested.2⟩ rfl hkeeps hnothing⟩
    · rw [hbefore]
      exact (List.append_nil _).symm
    · intro x hx
      exact h.handlers x (List.mem_cons_of_mem _ hx)

/-- A step keeps the invariant. -/
theorem step (h : q.Sound cfg es queue) (hstep : Step q cfg e cfg') :
    ∃ queue', q.Sound cfg' (es ++ [e]) queue' := by
  have hnested := h.nested
  cases hstep with
  | post item => exact h.post item
  | call hfree =>
      have hrunning := hnested.running hfree
      refine ⟨queue, h.next h.holds ?_ h.handlers ⟨trivial, hrunning⟩ rfl ?_ ?_⟩
      · rw [(FwTaskletQueue.Nested.of_running (q := q) (r := cfg.ring) hrunning).2]
        exact (List.append_nil _).symm
      · exact fun n hn => Or.inr (List.mem_cons_of_mem _ hn)
      · exact fun n hle hlt => absurd hlt (Nat.not_lt.mpr hle)
  | access point point' below ring' htop hnext => exact h.access htop hnext
  | start item below htop =>
      rw [htop] at hnested
      refine ⟨queue, h.next h.holds ?_ h.handlers hnested.2 rfl ?_ ?_⟩
      · rw [htop]
        exact (List.append_nil _).symm
      · intro n hn
        rw [htop] at hn
        exact Or.inr (List.mem_cons_of_mem _ ((List.mem_cons.mp hn).resolve_left nofun))
      · intro n hle hlt
        rw [Nat.le_antisymm (Nat.le_of_lt_succ hlt) hle]
        exact List.mem_cons_self
  | finish execution below htop =>
      rw [htop] at hnested
      refine ⟨queue, h.next h.holds ?_ h.handlers ⟨trivial, hnested⟩ rfl ?_ ?_⟩
      · rw [htop]
        exact (List.append_nil _).symm
      · intro n hn
        rw [htop] at hn
        rcases List.mem_cons.mp hn with hself | hbelow
        · cases hself
          exact Or.inl rfl
        · exact Or.inr (List.mem_cons_of_mem _ hbelow)
      · exact fun n hle hlt => absurd hlt (Nat.not_lt.mpr hle)
  | ret result below htop =>
      rw [htop] at hnested
      obtain ⟨hbelow, hinFlight⟩ := FwTaskletQueue.Nested.of_running (r := cfg.ring) hnested.2
      refine ⟨queue, h.next h.holds ?_ h.handlers hbelow rfl ?_ ?_⟩
      · rw [htop]
        change [] ++ inFlight below ++ queue = _
        rw [hinFlight]
        exact (List.append_nil _).symm
      · intro n hn
        rw [htop] at hn
        exact Or.inr ((List.mem_cons.mp hn).resolve_left nofun)
      · exact fun n hle hlt => absurd hlt (Nat.not_lt.mpr hle)

/-- Every run from an empty queue keeps the invariant. -/
theorem run (hempty : RingBuffer.Holds q.size r []) (hrun : Run (Step q) (idle r) es cfg) :
    ∃ queue, q.Sound cfg es queue := by
  apply hrun.invariant (fun cfg es => ∃ queue, q.Sound cfg es queue)
  · exact ⟨[], hempty, rfl, fun item hitem => (List.not_mem_nil hitem).elim, trivial, rfl,
      fun n hn => absurd hn (Nat.not_lt_zero n)⟩
  · rintro cfg es e cfg' ⟨queue, hsound⟩ hstep
    exact hsound.step hstep

end FwTaskletQueue.Sound

/-- When a dispatch is about to return `FW_FALSE`, the first `n` posts have been started. -/
def Drained (n : Nat) (cfg : Config) : Prop :=
  ∀ below, cfg.stack = .dispatching (.returns false) :: below → n ≤ cfg.starts

/-- A dispatch finds the queue empty only when every accepted post has been started. -/
theorem FwTaskletQueue.Sound.drained {n : Nat} (h : q.Sound cfg es queue)
    (hn : n ≤ (accepted es).length) (hdrained : Drained n cfg) (hstep : Step q cfg e cfg') :
    Drained n cfg' := by
  cases hstep with
  | post item => exact hdrained
  | call hfree => exact fun below hbelow => nomatch hbelow
  | access point point' below ring' htop hnext =>
      intro below' hbelow'
      obtain ⟨hpoint, rfl⟩ := List.cons.inj hbelow'
      cases hpoint
      have hnested := h.nested
      rw [htop] at hnested
      have hbefore : inFlight cfg.stack = [] := by
        rw [htop]
        exact inFlight_of_dispatchStep below hnext
      obtain ⟨-, -, -, hempty⟩ | ⟨item, rest, -, hcall, -⟩ :=
        dispatchStep_cases h.holds h.handlers hnested.1 hnext
      · have horder := h.order
        rw [hbefore, hempty rfl, List.append_nil, List.append_nil] at horder
        change n ≤ cfg.starts
        rw [h.starts, horder]
        exact hn
      · cases hcall
  | start item below htop => exact fun below' hbelow' => nomatch hbelow'
  | finish execution below htop => exact fun below' hbelow' => nomatch hbelow'
  | ret result below htop =>
      intro below' hbelow'
      have hnested := h.nested
      rw [htop] at hnested
      change below = _ at hbelow'
      obtain ⟨m, hm⟩ := hnested.2 (.dispatching (.returns false)) (hbelow' ▸ List.mem_cons_self)
      cases hm

theorem accepted_append (es fs : List Event) :
    accepted (es ++ fs) = accepted es ++ accepted fs := by
  rw [accepted, accepted, accepted, List.flatMap_append]

/-- Under every interleaving of posts and accesses, the accepted posts are executed at most once
and in order; a post fails exactly when its handler is missing or `capacity` posts are pending;
and when an outermost dispatch returns `FW_FALSE`, every post accepted before that dispatch was
called has been executed. -/
theorem fwTasklet_executes (q : FwTaskletQueue T) (r : RingBuffer FwTaskletItem)
    (hfits : RingBuffer.Fits q.size r) (hempty : q.pending r = [])
    (es : List Event) (cfg : Config) (hrun : Run (Step q) (idle r) es cfg) :
    (started es ++ inFlight cfg.stack ++ q.pending cfg.ring = accepted es ∧
      (q.pending cfg.ring).length ≤ q.capacity) ∧
    (∀ item : FwTaskletItem,
      let post := fwTaskletPost q cfg.ring item.handler item.context item.arg
      post.1 = (if item.handler = fwNull then .errInvalidArg
        else if (q.pending cfg.ring).length = q.capacity then .errBufferOverflow else .ok) ∧
      (post.1 ≠ .ok → post.2 = cfg.ring)) ∧
    ∀ called es' returning returned, cfg.stack = [] → Step q cfg .called called →
      Run (Step q) called es' returning → Step q returning (.returned false) returned →
      returned.stack = [] → ∀ n < (accepted es).length, .finished n ∈ es ++ [.called] ++ es' := by
  have hholds : RingBuffer.Holds q.size r [] := by
    have hcontent := hfits.holds
    rwa [show RingBuffer.content q.size r = [] from hempty] at hcontent
  obtain ⟨queue, hsound⟩ := FwTaskletQueue.Sound.run hholds hrun
  have hpending : q.pending cfg.ring = queue := hsound.holds.content_eq
  rw [hpending]
  refine ⟨⟨hsound.order, hsound.holds.length_le⟩, ?_, ?_⟩
  · intro item
    dsimp only
    obtain ⟨hnull, hpost⟩ | ⟨hnull, hfull, hpost⟩ | ⟨hnull, hroom, ring', hpost, -, -⟩ :=
      fwTaskletPost_cases hsound.holds item
    · rw [hpost, if_pos hnull]
      exact ⟨rfl, fun _ => rfl⟩
    · rw [hpost, if_neg hnull, if_pos hfull]
      exact ⟨rfl, fun _ => rfl⟩
    · rw [hpost, if_neg hnull, if_neg (Nat.ne_of_lt hroom)]
      exact ⟨rfl, fun h => absurd rfl h⟩
  · intro called es' returning returned hstack hcall hrun' hret hreturned n hn
    have hbefore := hrun.append (Run.single hcall)
    -- from the call on, `FW_FALSE` is only in sight when all posts of `es` have been started
    have hinv : (∃ queue, q.Sound returning (es ++ [.called] ++ es') queue) ∧
        Drained (accepted es).length returning := by
      refine hrun'.invariant (fun cfg' fs => (∃ queue, q.Sound cfg' (es ++ [.called] ++ fs) queue) ∧
        Drained (accepted es).length cfg') ⟨?_, ?_⟩ ?_
      · rw [List.append_nil]
        exact FwTaskletQueue.Sound.run hholds hbefore
      · cases hcall
        exact fun below hbelow => nomatch hbelow
      · rintro mid fs e next ⟨⟨queue', hmid⟩, hdrained⟩ hstep
        rw [← List.append_assoc]
        refine ⟨hmid.step hstep, hmid.drained ?_ hdrained hstep⟩
        rw [accepted_append, accepted_append, List.length_append, List.length_append]
        omega
    obtain ⟨⟨queue', hfinal⟩, hdrained⟩ := hinv
    cases hret with
    | ret _ below htop =>
        have hstarts := hdrained below htop
        have hbelow : below = [] := hreturned
        refine (hfinal.finished n (Nat.lt_of_lt_of_le hn hstarts)).resolve_right ?_
        rw [htop, hbelow]
        intro hrunning
        cases List.mem_singleton.mp hrunning

/-- What happens next: a post, a call, or the next step of the innermost call. -/
inductive Choice
  | post (item : FwTaskletItem)
  | call
  | advance

/-- The chosen step, if it is possible. -/
def turn (q : FwTaskletQueue T) (cfg : Config) : Choice → Option (Event × Config)
  | .post item =>
      let post := fwTaskletPost q cfg.ring item.handler item.context item.arg
      some (.posted item post.1, { cfg with ring := post.2 })
  | .call =>
      match cfg.stack with
      | .dispatching _ :: _ => none
      | _ => some (.called, { cfg with stack := .dispatching .loadTail :: cfg.stack })
  | .advance =>
      match cfg.stack with
      | [] => none
      | .running n :: below =>
          some (.finished n, { cfg with stack := .dispatching (.returns true) :: below })
      | .dispatching (.callHandler item) :: below =>
          some (.started item,
            { cfg with stack := .running cfg.starts :: below, starts := cfg.starts + 1 })
      | .dispatching (.returns result) :: below =>
          some (.returned result, { cfg with stack := below })
      | .dispatching point :: below =>
          (dispatchStep q cfg.ring point).map fun next =>
            (.accessed, { cfg with ring := next.2, stack := .dispatching next.1 :: below })

theorem turn_step (cfg : Config) (c : Choice) (e : Event) (cfg' : Config)
    (h : turn q cfg c = some (e, cfg')) : Step q cfg e cfg' := by
  cases c with
  | post item =>
      cases h
      exact Step.post cfg item
  | call =>
      simp only [turn] at h
      split at h
      · cases h
      · next hfree =>
          cases h
          apply Step.call
          cases hstack : cfg.stack with
          | nil => trivial
          | cons frame below =>
              cases frame with
              | dispatching point => exact absurd hstack (hfree point below)
              | running n => trivial
  | advance =>
      simp only [turn] at h
      split at h
      · cases h
      · next n below hstack =>
          cases h
          exact Step.finish cfg n below hstack
      · next item below hstack =>
          cases h
          exact Step.start cfg item below hstack
      · next result below hstack =>
          cases h
          exact Step.ret cfg result below hstack
      · next point below _ _ hstack =>
          obtain ⟨next, hnext, heq⟩ := Option.map_eq_some_iff.mp h
          cases heq
          exact Step.access cfg point next.1 below next.2 hstack hnext

/-- A queue of two posts. -/
def two : FwTaskletQueue target32 := ⟨2, 1, ⟨1, rfl⟩, by decide, rfl⟩

/-- An empty queue whose counters are about to wrap. -/
def wrappingRing : RingBuffer FwTaskletItem :=
  ⟨List.replicate 2 default, 2 ^ 32 - 1, 2 ^ 32 - 1⟩

/-- The first handler finds its own slot used again, posts into the full queue, and dispatches. -/
def reentrant : List Choice :=
  [Choice.post ⟨10, 1, 1⟩, Choice.call] ++ List.replicate 6 Choice.advance ++
    [Choice.post ⟨20, 2, 2⟩, Choice.post ⟨30, 3, 3⟩, Choice.advance, Choice.post ⟨40, 4, 4⟩,
      Choice.call] ++
    List.replicate 9 Choice.advance ++ List.replicate 2 Choice.advance ++ [Choice.call] ++
    List.replicate 9 Choice.advance

/-- The main loop asks once more. -/
def asking : Config :=
  let cfg := (Run.play (turn two) reentrant (idle wrappingRing)).2
  { cfg with stack := .dispatching .loadTail :: cfg.stack }

theorem fwTasklet_executes_sample :
    let run := Run.play (turn two) reentrant (idle wrappingRing)
    started run.1 = [⟨10, 1, 1⟩, ⟨20, 2, 2⟩, ⟨30, 3, 3⟩] ∧
      ∀ n < (accepted run.1).length, .finished n ∈ run.1 ++ [.called] ++
        (Run.play (turn two) [.advance, .advance] asking).1 := by
  have hstack : (Run.play (turn two) reentrant (idle wrappingRing)).2.stack = [] := by
    decide +kernel
  refine ⟨by decide +kernel, ?_⟩
  refine (fwTasklet_executes two wrappingRing ⟨rfl, by decide, by decide, by decide⟩
    (by decide +kernel) _ _ (Run.play_run turn_step reentrant (idle wrappingRing))).2.2
    asking _ _ _ hstack ?_ (Run.play_run turn_step [.advance, .advance] asking)
    (Step.ret _ false [] (by decide +kernel)) rfl
  apply Step.call
  rw [hstack]
  trivial

end ZeroEmbedded.Tasklet
