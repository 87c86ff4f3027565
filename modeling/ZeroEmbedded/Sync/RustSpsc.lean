import ZeroEmbedded.Foundation.RingThreads
import ZeroEmbedded.Types

/-!
# The queue of the Rust crate

`SpscQueue` keeps its items in slots that start uninitialised. Reading such a
slot is undefined behaviour, and an index out of bounds, a slice out of bounds
or a subtraction below zero panics. All of these are `stuck`, so that a run
that never gets stuck uses `unsafe` soundly and does not panic.

## Implementation notes

An uninitialised slot is `none`. The slice loops access one slot after the
other, and the other side may run between any two accesses.
-/

namespace ZeroEmbedded.RustSpsc

open Foundation
open Foundation.Threads (Completed)

/-- A queue type, after `CAPACITY_CHECK`; `usize` has `bits` bits. -/
structure SpscQueue (bits : Nat) where
  capacity : Nat
  capacity_pow : ∃ k, capacity = 2 ^ k
  capacity_lt : capacity < 2 ^ bits

variable {bits : Nat} {α : Type}

/-- `SpscQueue::new`. -/
def new (q : SpscQueue bits) : RingBuffer (Option α) := ⟨List.replicate q.capacity none, 0, 0⟩

/-- `usize::wrapping_add`. -/
def wrappingAdd (bits a b : Nat) : Nat := (a + b) % 2 ^ bits

/-- `usize::wrapping_sub`. -/
def wrappingSub (bits a b : Nat) : Nat := (a + 2 ^ bits - b) % 2 ^ bits

/-- A checked subtraction. -/
def checkedSub (a b : Nat) : RingProgram (Option α) Nat := if b ≤ a then pure (a - b) else .stuck

/-- The subslice `items[first..last]`. -/
def subslice (items : List α) (first last : Nat) : RingProgram (Option α) (List α) :=
  if first ≤ last ∧ last ≤ items.length then pure ((items.take last).drop first) else .stuck

/-- `(*self.storage[index].get()).write(item)`. -/
def writeSlot (q : SpscQueue bits) (index : Nat) (item : α) : RingProgram (Option α) Unit :=
  if index < q.capacity then RingProgram.writeSlots index [some item] else .stuck

/-- `(*self.storage[index].get()).assume_init()`. -/
def assumeInit (q : SpscQueue bits) (index : Nat) : RingProgram (Option α) α :=
  if index < q.capacity then do
    match ← RingProgram.readSlots index 1 with
    | [some item] => return item
    | _ => .stuck
  else .stuck

/-- Write the items into the slots from `idx` on. -/
def writeLoop (q : SpscQueue bits) (idx : Nat) : List α → RingProgram (Option α) Unit
  | [] => return ()
  | item :: items => do
      writeSlot q idx item
      writeLoop q (idx + 1) items

/-- Read `n` slots from `idx` on. -/
def readLoop (q : SpscQueue bits) (idx : Nat) : Nat → RingProgram (Option α) (List α)
  | 0 => return []
  | n + 1 => do
      let item ← assumeInit q idx
      let items ← readLoop q (idx + 1) n
      return item :: items

/-- `try_enqueue`. -/
def tryEnqueue (q : SpscQueue bits) (item : α) :
    RingProgram (Option α) (Except FwStatus Unit) := do
  let head ← RingProgram.loadHead
  let tail ← RingProgram.loadTail
  if wrappingSub bits head tail ≥ q.capacity then return .error .errBufferOverflow
  let index := head &&& (q.capacity - 1)
  writeSlot q index item
  RingProgram.storeHead (wrappingAdd bits head 1)
  return .ok ()

/-- `try_dequeue`. -/
def tryDequeue (q : SpscQueue bits) : RingProgram (Option α) (Option α) := do
  let tail ← RingProgram.loadTail
  let head ← RingProgram.loadHead
  if tail = head then return none
  let index := tail &&& (q.capacity - 1)
  let item ← assumeInit q index
  RingProgram.storeTail (wrappingAdd bits tail 1)
  return some item

/-- `enqueue_slice`. -/
def enqueueSlice (q : SpscQueue bits) (slice : List α) : RingProgram (Option α) Nat := do
  let head ← RingProgram.loadHead
  let tail ← RingProgram.loadTail
  let available ← checkedSub q.capacity (wrappingSub bits head tail)
  let toWrite := min slice.length available
  if toWrite = 0 then return 0
  let idx := head &&& (q.capacity - 1)
  let behind ← checkedSub q.capacity idx
  let chunk1 := min behind toWrite
  let items ← subslice slice 0 chunk1
  writeLoop q idx items
  let chunk2 ← checkedSub toWrite chunk1
  if chunk2 > 0 then
    let items ← subslice slice chunk1 toWrite
    writeLoop q 0 items
  RingProgram.storeHead (wrappingAdd bits head toWrite)
  return toWrite

/-- `dequeue_slice` into a slice of `room` items, and the items it stores there. -/
def dequeueSlice (q : SpscQueue bits) (room : Nat) : RingProgram (Option α) (Nat × List α) := do
  let tail ← RingProgram.loadTail
  let head ← RingProgram.loadHead
  let count := wrappingSub bits head tail
  let toRead := min room count
  if toRead = 0 then return (0, [])
  let idx := tail &&& (q.capacity - 1)
  let behind ← checkedSub q.capacity idx
  let chunk1 := min behind toRead
  let first ← readLoop q idx chunk1
  let chunk2 ← checkedSub toRead chunk1
  let second ← if chunk2 > 0 then readLoop q 0 chunk2 else pure []
  RingProgram.storeTail (wrappingAdd bits tail toRead)
  return (toRead, first ++ second)

/-- `len`. -/
def len (_q : SpscQueue bits) : RingProgram (Option α) Nat := do
  let head ← RingProgram.loadHead
  let tail ← RingProgram.loadTail
  return wrappingSub bits head tail

/-- The calls of both sides; either side may ask for the length. -/
inductive SpscCall (α : Type)
  | tryEnqueue (item : α)
  | tryDequeue
  | enqueueSlice (slice : List α)
  | dequeueSlice (room : Nat)
  | len (side : RingEnd)

/-- What the calls return and store. -/
inductive SpscResult (α : Type)
  | tryEnqueue (result : Except FwStatus Unit)
  | tryDequeue (item : Option α)
  | enqueueSlice (written : Nat)
  | dequeueSlice (count : Nat) (dst : List α)
  | len (count : Nat)

def SpscCall.side : SpscCall α → RingEnd
  | tryEnqueue _ => .producer
  | enqueueSlice _ => .producer
  | tryDequeue => .consumer
  | dequeueSlice _ => .consumer
  | len side => side

def SpscCall.program (q : SpscQueue bits) : SpscCall α → RingProgram (Option α) (SpscResult α)
  | tryEnqueue item => do return .tryEnqueue (← RustSpsc.tryEnqueue q item)
  | enqueueSlice slice => do return .enqueueSlice (← RustSpsc.enqueueSlice q slice)
  | tryDequeue => do return .tryDequeue (← RustSpsc.tryDequeue q)
  | dequeueSlice room => do
      let (count, dst) ← RustSpsc.dequeueSlice q room
      return .dequeueSlice count dst
  | len _ => do return .len (← RustSpsc.len q)

/-- A completed call with the state of the ring at its last load. -/
abbrev SpscEvent (α : Type) := Completed (RingBuffer (Option α)) (SpscCall α) (SpscResult α)

/-- The items that a completed call has enqueued. -/
def enqueued (d : SpscEvent α) : List α :=
  match d.op, d.result with
  | .tryEnqueue item, .tryEnqueue (.ok _) => [item]
  | .enqueueSlice slice, .enqueueSlice written => slice.take written
  | _, _ => []

/-- The items that a completed call has dequeued. -/
def dequeued (d : SpscEvent α) : List α :=
  match d.result with
  | .tryDequeue item => item.toList
  | .dequeueSlice count dst => dst.take count
  | _ => []

namespace SpscQueue

variable (q : SpscQueue bits)

def size : RingSize := RingSize.ofPow q.capacity_pow ⟨bits, rfl⟩ q.capacity_lt

/-- The initialised items in the queue. -/
def content (r : RingBuffer (Option α)) : List α := (RingBuffer.content q.size r).reduceOption

/-- What a completed call returns, by the state at its last load. -/
def Meets (d : SpscEvent α) : Prop :=
  match d.op, d.result with
  | .tryEnqueue _, .tryEnqueue result =>
      result = if (q.content d.seen).length = q.capacity then .error .errBufferOverflow else .ok ()
  | .tryDequeue, .tryDequeue item => item = (q.content d.seen).head?
  | .enqueueSlice slice, .enqueueSlice written =>
      written = min slice.length (q.capacity - (q.content d.seen).length)
  | .dequeueSlice room, .dequeueSlice count dst =>
      count = min room (q.content d.seen).length ∧ dst = (q.content d.seen).take count
  | .len _, .len count => count ≤ q.capacity
  | _, _ => False

/-- The calls on a queue of this type. -/
def calls (α : Type) : RingCalls (Option α) (SpscCall α) (SpscResult α) where
  size := q.size
  side := SpscCall.side
  program := SpscCall.program q
  element item := item.isSome
  accepted d := (enqueued d).map some
  delivered d := (dequeued d).map some
  meets := q.Meets

end SpscQueue

variable {q : SpscQueue bits} {r s t seen : RingBuffer (Option α)} {queue : List (Option α)}
  {vals items : List α} {op : SpscCall α} {h n idx j : Nat}

theorem SpscQueue.and_mask (counter : Nat) :
    counter &&& (q.capacity - 1) = counter % q.size.capacity :=
  PowerOfTwo.and_mask q.capacity_pow counter

theorem SpscQueue.mod_lt (counter : Nat) : counter % q.size.capacity < q.capacity :=
  Nat.mod_lt _ q.size.capacity_pos

/-- The queue that the ring stores consists of initialised items. -/
theorem SpscQueue.stores_eq (hq : (q.calls α).Stores r queue) :
    queue = (q.content r).map some := by
  have hcontent : RingBuffer.content q.size r = queue := hq.holds.content_eq
  rw [SpscQueue.content, hcontent]
  have hall := hq.elements
  clear hq hcontent
  induction queue with
  | nil => rfl
  | cons item queue ih =>
      obtain ⟨val, rfl⟩ := Option.isSome_iff_exists.mp (hall item List.mem_cons_self)
      rw [List.reduceOption_cons_of_some, List.map_cons,
        ← ih fun x hx => hall x (List.mem_cons_of_mem _ hx)]

theorem SpscQueue.wrappingSub_eq (hq : (q.calls α).Stores r queue) :
    wrappingSub bits r.head r.tail = (q.content r).length := by
  have hlen := congrArg List.length (SpscQueue.stores_eq hq)
  rw [List.length_map] at hlen
  rw [← hlen]
  exact hq.holds.distance

/-- The slots from `idx` on, behind the counter. -/
def Slots (q : SpscQueue bits) (counter idx n : Nat) : Prop :=
  ∀ k < n, idx + k < q.capacity ∧ (counter + k) % q.size.capacity = idx + k

theorem Slots.rest {counter : Nat} (hslots : Slots q counter idx (n + 1)) :
    Slots q (counter + 1) (idx + 1) n := by
  intro k hk
  obtain ⟨hlt, hmod⟩ := hslots (k + 1) (by omega)
  rw [show counter + 1 + k = counter + (k + 1) by omega, hmod]
  omega

/-- A write loop issues a command, unless it is empty and the call goes on behind it. -/
theorem writeLoop_goesOn {f : Unit → RingProgram (Option α) (SpscResult α)}
    (hf : (Threads.settle op seen (f ())).2 = none) :
    (Threads.settle op seen (writeLoop q idx items >>= f)).2 = none := by
  cases items with
  | nil => exact hf
  | cons item items =>
      rw [writeLoop, writeSlot]
      split <;> rfl

/-- A read loop issues a command, unless it is empty and the call goes on behind it. -/
theorem readLoop_goesOn {f : List α → RingProgram (Option α) (SpscResult α)}
    (hf : ∀ items, (Threads.settle op seen (f items)).2 = none) :
    (Threads.settle op seen (readLoop q idx n >>= f)).2 = none := by
  cases n with
  | zero => exact hf []
  | succ n =>
      rw [readLoop, assumeInit]
      split <;> rfl

/-- A write loop stages its items. -/
theorem writeLoop_conforms {chunk : List α} {f : Unit → RingProgram (Option α) (SpscResult α)}
    {staged : List (Option α)} (hq : (q.calls α).Stores s queue)
    (hstaged : RingBuffer.Staged q.size h n staged s) (hfree : staged.length + chunk.length ≤ n)
    (hslots : Slots q (h + staged.length) idx chunk.length)
    (hnone : (Threads.settle op seen (f ())).2 = none)
    (hf : ∀ t queue, (q.calls α).Stores t queue →
      RingBuffer.Staged q.size h n (staged ++ chunk.map some) t →
      (q.calls α).contract.Conforms (q.calls α).threads .producer op (f ()) t seen) :
    (q.calls α).contract.Conforms (q.calls α).threads .producer op (writeLoop q idx chunk >>= f)
      s seen := by
  induction chunk generalizing s queue staged idx with
  | nil =>
      rw [List.map_nil, List.append_nil] at hf
      exact hf s queue hq hstaged
  | cons item chunk ih =>
      have hrest := Slots.rest hslots
      obtain ⟨hlt, hmod⟩ := hslots 0 (Nat.succ_pos _)
      rw [List.length_cons] at hfree
      rw [Nat.add_zero] at hlt hmod
      rw [writeLoop, writeSlot, if_pos hlt]
      apply RingCalls.producer_writes hq hstaged
      · change staged.length + 1 ≤ n
        omega
      · exact hmod.symm
      · exact hlt
      · exact writeLoop_goesOn hnone
      · intro t queue' hq' hstaged'
        have hlen : (staged ++ [some item]).length = staged.length + 1 := List.length_append
        apply ih hq' hstaged'
        · omega
        · rw [hlen]
          exact hrest
        · rw [List.append_assoc]
          exact hf

/-- A read loop returns the items of its slots. -/
theorem readLoop_conforms {f : List α → RingProgram (Option α) (SpscResult α)}
    (hq : (q.calls α).Stores s queue) (hfront : RingBuffer.Front q.size h (vals.map some) s)
    (hn : j + n ≤ vals.length) (hslots : Slots q (h + j) idx n)
    (hnone : ∀ items, (Threads.settle op seen (f items)).2 = none)
    (hf : ∀ t queue, (q.calls α).Stores t queue → RingBuffer.Front q.size h (vals.map some) t →
      (q.calls α).contract.Conforms (q.calls α).threads .consumer op (f ((vals.drop j).take n))
        t seen) :
    (q.calls α).contract.Conforms (q.calls α).threads .consumer op (readLoop q idx n >>= f)
      s seen := by
  induction n generalizing s queue idx j f with
  | zero => exact hf s queue hq hfront
  | succ n ih =>
      have hrest := Slots.rest hslots
      obtain ⟨hlt, hmod⟩ := hslots 0 (Nat.succ_pos _)
      rw [Nat.add_zero] at hlt hmod
      have hj : j < vals.length := by omega
      have hitem : ((vals.map some).drop j).take 1 = [some vals[j]] := by
        rw [List.drop_eq_getElem_cons (by rw [List.length_map]; exact hj), List.getElem_map]
        rfl
      rw [readLoop, assumeInit, if_pos hlt]
      apply RingCalls.consumer_reads hq hfront (j := j)
      · rw [List.length_map]
        omega
      · exact hmod.symm
      · exact hlt
      · rw [hitem]
        change (Threads.settle op seen
          ((readLoop q (idx + 1) n >>= fun items => pure (vals[j] :: items)) >>= f)).2 = none
        rw [Program.bind_assoc]
        exact readLoop_goesOn fun items => hnone _
      · intro t queue' hq' hfront'
        rw [hitem]
        have hdrop : (vals.drop j).take (n + 1) = vals[j] :: (vals.drop (j + 1)).take n := by
          rw [List.drop_eq_getElem_cons hj, List.take_succ_cons]
        rw [hdrop] at hf
        change (q.calls α).contract.Conforms _ _ _
          ((readLoop q (idx + 1) n >>= fun items => pure (vals[j] :: items)) >>= f) t seen
        rw [Program.bind_assoc]
        apply ih hq' hfront' (j := j + 1)
        · omega
        · exact hrest
        · exact fun items => hnone _
        · exact hf

/-- The slots from a masked counter on, up to the end of the storage. -/
theorem SpscQueue.slots (counter : Nat) (hn : counter % q.size.capacity + n ≤ q.capacity) :
    Slots q counter (counter % q.size.capacity) n := by
  intro k hk
  constructor
  · omega
  · apply q.size.slot_add
    change _ < q.capacity
    omega

/-- The slots from the first one on, behind the end of the storage. -/
theorem SpscQueue.slots_wrap {counter i : Nat} (hi : counter % q.size.capacity + i = q.capacity)
    (hn : n ≤ q.capacity) : Slots q (counter + i) 0 n := by
  intro k hk
  have hwrap : (counter + i) % q.size.capacity = 0 := q.size.slot_wrap hi
  have hcapacity : q.size.capacity = q.capacity := rfl
  constructor
  · omega
  · rw [q.size.slot_add (by omega), hwrap]

theorem SpscQueue.content_length_le (hq : (q.calls α).Stores r queue) :
    (q.content r).length ≤ q.capacity := by
  have hlen := hq.holds.length_le
  rw [SpscQueue.stores_eq hq, List.length_map] at hlen
  exact hlen

/-- At first nothing is staged. -/
theorem SpscQueue.staged (hq : (q.calls α).Stores r queue) :
    RingBuffer.Staged q.size r.head (q.capacity - (q.content r).length) [] r := by
  have hstaged := hq.holds.staged
  rw [SpscQueue.stores_eq hq, List.length_map] at hstaged
  exact hstaged

/-- Every prefix of the queue is known. -/
theorem SpscQueue.front (hq : (q.calls α).Stores r queue) (n : Nat) :
    RingBuffer.Front q.size r.tail (((q.content r).take n).map some) r := by
  have hfront := hq.holds.front n
  rw [SpscQueue.stores_eq hq, ← List.map_take] at hfront
  exact hfront

/-- `try_enqueue` appends an item unless the queue is full at its loads. -/
theorem tryEnqueue_starts (item : α) (s : RingBuffer (Option α)) :
    (q.calls α).contract.Starts (q.calls α).threads (.tryEnqueue item) s := by
  apply RingCalls.producer_continues rfl
  apply RingCalls.producer_loads
  intro t queue hq
  dsimp only [Program.bind]
  rw [SpscQueue.wrappingSub_eq hq]
  by_cases hfull : (q.content t).length ≥ q.capacity
  · rw [if_pos hfull]
    refine RingCalls.producer_returns ?_ rfl rfl
    change _ = ite _ _ _
    rw [if_pos (Nat.le_antisymm (SpscQueue.content_length_le hq) hfull)]
  · rw [if_neg hfull, SpscQueue.and_mask, writeSlot, if_pos (SpscQueue.mod_lt t.head)]
    apply RingCalls.producer_continues rfl
    apply RingCalls.producer_writes hq (SpscQueue.staged hq)
    · change 0 + 1 ≤ _
      omega
    · rfl
    · exact SpscQueue.mod_lt t.head
    · rfl
    · intro u queue' hq' hstaged
      refine RingCalls.producer_publishes hq' hstaged (by change 1 ≤ _; omega) rfl ?_ ?_ rfl rfl
      · intro x hx
        rw [List.mem_singleton.mp hx]
        rfl
      · change _ = ite ((q.content t).length = q.capacity) _ _
        rw [if_neg (by omega)]

/-- `try_dequeue` removes the oldest item unless the queue is empty at its loads. -/
theorem tryDequeue_starts (s : RingBuffer (Option α)) :
    (q.calls α).contract.Starts (q.calls α).threads .tryDequeue s := by
  apply RingCalls.consumer_continues rfl
  apply RingCalls.consumer_loads
  intro t queue hq
  dsimp only [Program.bind]
  have hqueue := SpscQueue.stores_eq hq
  by_cases hempty : t.tail = t.head
  · rw [if_pos hempty]
    refine RingCalls.consumer_returns ?_ rfl rfl
    rw [hq.holds.empty_iff.mp hempty] at hqueue
    change none = (q.content t).head?
    rw [List.map_eq_nil_iff.mp hqueue.symm]
    rfl
  · rw [if_neg hempty, SpscQueue.and_mask, assumeInit, if_pos (SpscQueue.mod_lt t.tail)]
    have hfront := SpscQueue.front hq 1
    cases hvals : q.content t with
    | nil =>
        rw [hvals] at hqueue
        exact absurd (hq.holds.empty_iff.mpr hqueue) hempty
    | cons item rest =>
        rw [hvals] at hfront
        apply RingCalls.consumer_continues rfl
        apply RingCalls.consumer_reads hq hfront (j := 0) (Nat.le_refl 1)
        · rfl
        · exact SpscQueue.mod_lt t.tail
        · rfl
        · intro u queue' hq' hfront'
          refine RingCalls.consumer_releases hq' hfront' rfl ?_ rfl rfl
          change some item = (q.content t).head?
          rw [hvals]
          rfl

/-- `enqueue_slice` appends as many items as fit at its loads. -/
theorem enqueueSlice_starts (slice : List α) (s : RingBuffer (Option α)) :
    (q.calls α).contract.Starts (q.calls α).threads (.enqueueSlice slice) s := by
  apply RingCalls.producer_continues rfl
  apply RingCalls.producer_loads
  intro t queue hq
  dsimp only [Program.bind]
  have hle := SpscQueue.content_length_le hq
  have hcapacity := q.capacity_lt
  rw [SpscQueue.wrappingSub_eq hq, checkedSub, if_pos hle, Program.pure_def, Program.ret_bind]
  generalize hn : min slice.length (q.capacity - (q.content t).length) = n
  have hmeets : q.Meets ⟨.enqueueSlice slice, .enqueueSlice n, t⟩ := hn.symm
  by_cases hnone : n = 0
  · subst hnone
    exact RingCalls.producer_returns hmeets rfl rfl
  rw [if_neg hnone]
  have hlt := SpscQueue.mod_lt (q := q) t.head
  rw [SpscQueue.and_mask, checkedSub, if_pos (Nat.le_of_lt hlt), Program.pure_def,
    Program.ret_bind]
  generalize hc : min (q.capacity - t.head % q.size.capacity) n = c
  have hfirst : (slice.take c).length = c := List.length_take_of_le (by omega)
  rw [subslice, if_pos ⟨Nat.zero_le c, by omega⟩, List.drop_zero, Program.pure_def,
    Program.ret_bind, checkedSub, if_pos (by omega), Program.pure_def, Program.ret_bind]
  have hend : t.head % q.size.capacity + (slice.take c).length ≤ q.capacity := by omega
  -- the store that publishes the first `n` items of the slice
  have hpublish : ∀ u queue', (q.calls α).Stores u queue' →
      RingBuffer.Staged q.size t.head (q.capacity - (q.content t).length)
        ((slice.take n).map some) u →
      (q.calls α).contract.Conforms (q.calls α).threads .producer (.enqueueSlice slice)
        (RingProgram.storeHead (wrappingAdd bits t.head n) >>= fun _ =>
          pure (SpscResult.enqueueSlice n)) u t := by
    intro u queue' hq' hstaged
    have hlen : ((slice.take n).map some).length = n := by
      rw [List.length_map]
      exact List.length_take_of_le (by omega)
    refine RingCalls.producer_publishes hq' hstaged (by omega) ?_ ?_ hmeets rfl rfl
    · rw [hlen]
      rfl
    · intro x hx
      obtain ⟨item, -, rfl⟩ := List.mem_map.mp hx
      rfl
  by_cases hrest : n - c > 0
  · rw [if_pos hrest, subslice, if_pos ⟨by omega, by omega⟩, Program.pure_def, Program.ret_bind]
    -- the first chunk ends with the storage, the second one starts at the first slot
    change (q.calls α).contract.After _ _ _ ((writeLoop q _ _ >>= fun _ =>
      writeLoop q _ _ >>= _) >>= _) t t t
    rw [Program.bind_assoc]
    have hsecond : ((slice.take n).drop c).length = n - c := by
      rw [List.length_drop, List.length_take_of_le (by omega)]
    have hgoes : (Threads.settle (SpscCall.enqueueSlice slice) t
        ((writeLoop q 0 ((slice.take n).drop c) >>= fun _ =>
          RingProgram.storeHead (wrappingAdd bits t.head n) >>= fun _ => pure n) >>= fun n =>
            pure (SpscResult.enqueueSlice n : SpscResult α))).2 = none := by
      rw [Program.bind_assoc]
      exact writeLoop_goesOn rfl
    apply RingCalls.producer_continues (writeLoop_goesOn hgoes)
    apply writeLoop_conforms hq (SpscQueue.staged hq)
    · rw [hfirst, List.length_nil]
      omega
    · exact SpscQueue.slots t.head hend
    · exact hgoes
    intro u queue' hq' hstaged
    rw [Program.bind_assoc]
    apply writeLoop_conforms hq' hstaged
    · rw [List.nil_append, List.length_map, hfirst, hsecond]
      omega
    · rw [List.nil_append, List.length_map, hfirst]
      exact SpscQueue.slots_wrap (by omega) (by omega)
    · rfl
    intro v queue' hq' hstaged
    apply hpublish v queue' hq'
    have htake : slice.take c = (slice.take n).take c := by
      rw [List.take_take, Nat.min_eq_left (by omega)]
    rw [List.nil_append, ← List.map_append, htake, List.take_append_drop] at hstaged
    exact hstaged
  · rw [if_neg hrest]
    change (q.calls α).contract.After _ _ _ ((writeLoop q _ _ >>= _) >>= _) t t t
    rw [Program.bind_assoc]
    have hall : c = n := by omega
    rw [hall] at hfirst hend ⊢
    apply RingCalls.producer_continues (writeLoop_goesOn rfl)
    apply writeLoop_conforms hq (SpscQueue.staged hq)
    · rw [hfirst, List.length_nil]
      omega
    · exact SpscQueue.slots t.head hend
    · rfl
    · exact hpublish

/-- `dequeue_slice` removes as many items as are there at its loads. -/
theorem dequeueSlice_starts (room : Nat) (s : RingBuffer (Option α)) :
    (q.calls α).contract.Starts (q.calls α).threads (.dequeueSlice room) s := by
  apply RingCalls.consumer_continues rfl
  apply RingCalls.consumer_loads
  intro t queue hq
  dsimp only [Program.bind]
  have hle := SpscQueue.content_length_le hq
  rw [SpscQueue.wrappingSub_eq hq]
  generalize hn : min room (q.content t).length = n
  have hmeets : q.Meets ⟨.dequeueSlice room, .dequeueSlice n ((q.content t).take n), t⟩ :=
    ⟨hn.symm, rfl⟩
  by_cases hnone : n = 0
  · subst hnone
    exact RingCalls.consumer_returns hmeets rfl rfl
  rw [if_neg hnone]
  have hlt := SpscQueue.mod_lt (q := q) t.tail
  rw [SpscQueue.and_mask, checkedSub, if_pos (Nat.le_of_lt hlt), Program.pure_def,
    Program.ret_bind]
  generalize hc : min (q.capacity - t.tail % q.size.capacity) n = c
  rw [checkedSub, if_pos (by omega)]
  simp only [Program.pure_def, Program.ret_bind]
  have hlen : ((q.content t).take n).length = n := List.length_take_of_le (by omega)
  have hend : t.tail % q.size.capacity + c ≤ q.capacity := by omega
  have hfront := SpscQueue.front hq n
  -- the store that releases the first `n` items of the queue
  have hrelease : ∀ u queue' (items : List α), items = (q.content t).take n →
      (q.calls α).Stores u queue' →
      RingBuffer.Front q.size t.tail (((q.content t).take n).map some) u →
      (q.calls α).contract.Conforms (q.calls α).threads .consumer (.dequeueSlice room)
        (RingProgram.storeTail (wrappingAdd bits t.tail n) >>= fun _ =>
          pure (SpscResult.dequeueSlice n items)) u t := by
    rintro u queue' items rfl hq' hfront'
    refine RingCalls.consumer_releases hq' hfront' ?_ hmeets ?_ rfl
    · rw [List.length_map, hlen]
      rfl
    · change List.map some (((q.content t).take n).take n) = _
      rw [List.take_take, Nat.min_self]
  by_cases hrest : n - c > 0
  · simp only [if_pos hrest]
    change (q.calls α).contract.After _ _ _ ((readLoop q _ _ >>= fun first =>
      readLoop q _ _ >>= _) >>= _) t t t
    rw [Program.bind_assoc]
    have hgoes : ∀ first : List α, (Threads.settle (SpscCall.dequeueSlice room : SpscCall α) t
        ((readLoop q 0 (n - c) >>= fun second =>
          RingProgram.storeTail (wrappingAdd bits t.tail n) >>= fun _ =>
            pure (n, first ++ second)) >>= fun x =>
            pure (SpscResult.dequeueSlice x.1 x.2 : SpscResult α))).2 = none := by
      intro first
      rw [Program.bind_assoc]
      exact readLoop_goesOn fun items => rfl
    apply RingCalls.consumer_continues (readLoop_goesOn hgoes)
    apply readLoop_conforms hq hfront (j := 0)
    · omega
    · exact SpscQueue.slots t.tail hend
    · exact hgoes
    intro u queue' hq' hfront'
    rw [Program.bind_assoc]
    apply readLoop_conforms hq' hfront' (j := c)
    · omega
    · exact SpscQueue.slots_wrap (by omega) (by omega)
    · exact fun items => rfl
    intro v queue' hq' hfront'
    apply hrelease v queue' _ _ hq' hfront'
    rw [List.drop_zero, ← List.take_add, show c + (n - c) = n by omega, List.take_take,
      Nat.min_self]
  · simp only [if_neg hrest]
    change (q.calls α).contract.After _ _ _ ((readLoop q _ _ >>= _) >>= _) t t t
    rw [Program.bind_assoc]
    have hall : c = n := by omega
    rw [hall] at hend ⊢
    apply RingCalls.consumer_continues (readLoop_goesOn fun items => rfl)
    apply readLoop_conforms hq hfront (j := 0)
    · omega
    · exact SpscQueue.slots t.tail hend
    · exact fun items => rfl
    · intro u queue' hq' hfront'
      apply hrelease u queue' _ _ hq' hfront'
      rw [List.append_nil, List.drop_zero, List.take_take, Nat.min_self]

/-- `len` counts at most `CAPACITY` items on either side. -/
theorem len_starts (side : RingEnd) (s : RingBuffer (Option α)) :
    (q.calls α).contract.Starts (q.calls α).threads (.len side) s := by
  cases side with
  | producer =>
      apply RingCalls.producer_continues rfl
      apply RingCalls.producer_loads
      intro t queue hq
      refine RingCalls.producer_returns ?_ rfl rfl
      change wrappingSub bits t.head t.tail ≤ q.capacity
      rw [SpscQueue.wrappingSub_eq hq]
      exact SpscQueue.content_length_le hq
  | consumer =>
      apply RingCalls.consumer_continues rfl
      apply RingCalls.consumer_peeks
      intro t u queue items hq hprod
      refine RingCalls.consumer_returns ?_ rfl rfl
      change wrappingSub bits t.head u.tail ≤ q.capacity
      rw [hprod.tail_eq, SpscQueue.wrappingSub_eq hq]
      exact SpscQueue.content_length_le hq

/-- Every call keeps the contract of its side. -/
theorem SpscQueue.starts (op : SpscCall α) (s : RingBuffer (Option α)) :
    (q.calls α).contract.Starts (q.calls α).threads op s := by
  cases op with
  | tryEnqueue item => exact tryEnqueue_starts item s
  | tryDequeue => exact tryDequeue_starts s
  | enqueueSlice slice => exact enqueueSlice_starts slice s
  | dequeueSlice room => exact dequeueSlice_starts room s
  | len side => exact len_starts side s

/-- A new queue is empty. -/
theorem new_fits (q : SpscQueue bits) :
    RingBuffer.Fits q.size (new q : RingBuffer (Option α)) ∧
      RingBuffer.content q.size (new q : RingBuffer (Option α)) = [] :=
  RingBuffer.fits_empty List.length_replicate

/-- The items that the completed calls of a run have enqueued. -/
def enqueuedBy (es : List (Option (SpscEvent α))) : List α := es.flatMap fun e => e.elim [] enqueued

/-- The items that the completed calls of a run have dequeued. -/
def dequeuedBy (es : List (Option (SpscEvent α))) : List α := es.flatMap fun e => e.elim [] dequeued

theorem enqueuedBy_eq (es : List (Option (SpscEvent α))) :
    es.flatMap (q.calls α).acceptedBy = (enqueuedBy es).map some := by
  rw [enqueuedBy, List.map_flatMap]
  congr 1
  funext e
  cases e <;> rfl

theorem dequeuedBy_eq (es : List (Option (SpscEvent α))) :
    es.flatMap (q.calls α).deliveredBy = (dequeuedBy es).map some := by
  rw [dequeuedBy, List.map_flatMap]
  congr 1
  funext e
  cases e <;> rfl

/-- A slot of the queue holds one of its items. -/
theorem SpscQueue.live_item {slot : Nat} (hq : (q.calls α).Stores r queue)
    (hlive : (q.calls α).Live r slot) : ∃ m, slot = (r.tail + m) % q.capacity ∧
      ∃ h : m < (q.content r).length, r.slots[slot]? = some (some (q.content r)[m]) := by
  obtain ⟨queue', hq', m, hm, rfl⟩ := hlive
  have hqueue : queue' = (q.content r).map some :=
    (hq'.unique hq.holds).trans (SpscQueue.stores_eq hq)
  have hlen : m < (q.content r).length := by
    rw [hqueue, List.length_map] at hm
    exact hm
  refine ⟨m, rfl, hlen, ?_⟩
  rw [hq'.slot m hm, hqueue, List.getElem?_map, List.getElem?_eq_getElem hlen]
  rfl

/-- Under every interleaving of the accesses of both sides, the items dequeued are the items
enqueued in order, no call gets stuck, and every slot that is read stores an item which was
enqueued and not dequeued since. -/
theorem spscQueue_lossless (q : SpscQueue bits) (r : RingBuffer (Option α))
    (hr : RingBuffer.Fits q.size r)
    (hinit : ∀ x ∈ RingBuffer.content q.size r, x.isSome) (es : List (Option (SpscEvent α)))
    (cfg : Threads.Config RingEnd (RingCommand (Option α)) RingCommand.Reply (RingBuffer (Option α))
      (SpscCall α) (SpscResult α))
    (hrun : Run (Threads.Step (q.calls α).threads) (Threads.idle r) es cfg) :
    q.content r ++ enqueuedBy es = dequeuedBy es ++ q.content cfg.shared ∧
      wrappingSub bits cfg.shared.head cfg.shared.tail = (q.content cfg.shared).length ∧
      (q.content cfg.shared).length ≤ q.capacity ∧
      (∀ d, some d ∈ es → q.Meets d) ∧
      (∀ i op rest seen, cfg.pending i = some ⟨op, rest, seen⟩ → rest ≠ .stuck) ∧
      ∀ i op idx n k seen, cfg.pending i = some ⟨op, .call (.readSlots idx n) k, seen⟩ →
        ∀ j < n, ∃ m, idx + j = (cfg.shared.tail + m) % q.capacity ∧
          ∃ h : m < (q.content cfg.shared).length,
            cfg.shared.slots[idx + j]? = some (some (q.content cfg.shared)[m]) := by
  have hq : (q.calls α).Stores r (RingBuffer.content q.size r) := ⟨hr.holds, hinit⟩
  obtain ⟨queue, hqueue, heq, hmeets, hsafe⟩ :=
    RingCalls.lossless (fun op s _ => SpscQueue.starts op s) hq hrun
  refine ⟨?_, SpscQueue.wrappingSub_eq hqueue, SpscQueue.content_length_le hqueue, hmeets, ?_, ?_⟩
  · rw [SpscQueue.stores_eq hq, SpscQueue.stores_eq hqueue, enqueuedBy_eq, dequeuedBy_eq,
      ← List.map_append, ← List.map_append] at heq
    exact List.map_injective_iff.mpr (fun _ _ => Option.some.inj) heq
  · rintro i op rest seen hpending rfl
    obtain ⟨c, k, hstuck, -⟩ := hsafe i op _ seen hpending
    cases hstuck
  · intro i op idx n k seen hpending j hj
    obtain ⟨c, k', hcall, hallowed⟩ := hsafe i op _ seen hpending
    cases hcall
    exact SpscQueue.live_item hqueue (hallowed.2 j hj)

/-- A queue of four items, one slot of which was never written. -/
def wrapping : SpscQueue 64 := ⟨4, ⟨2, rfl⟩, by decide⟩

/-- The head has wrapped, the tail has not. -/
def wrappingRing : RingBuffer (Option Nat) :=
  ⟨[none, some 30, some 10, some 20], 0, 2 ^ 64 - 2⟩

/-- The producer fills the queue while the consumer is between the slots of a slice. -/
def preempted : List (Threads.Turn RingEnd (SpscCall Nat)) :=
  [.start (.dequeueSlice 3), .exec .consumer, .exec .consumer, .exec .consumer,
    .start (.enqueueSlice [40, 50, 60]), .exec .producer, .exec .producer, .exec .producer,
    .exec .producer, .exec .producer, .exec .consumer, .exec .consumer, .start (.len .consumer),
    .exec .consumer, .exec .consumer, .exec .consumer]

theorem spscQueue_lossless_sample :
    let run := Run.play (wrapping.calls Nat).threads.turn preempted (Threads.idle wrappingRing)
    dequeuedBy run.1 = [10, 20] ∧ enqueuedBy run.1 = [40, 50] ∧
      wrapping.content wrappingRing ++ enqueuedBy run.1 =
        dequeuedBy run.1 ++ wrapping.content run.2.shared :=
  ⟨by decide +kernel, by decide +kernel,
    (spscQueue_lossless wrapping wrappingRing ⟨rfl, by decide, by decide, by decide⟩
      (by decide) _ _
      (Run.play_run (wrapping.calls Nat).threads.turn_step preempted
        (Threads.idle wrappingRing))).1⟩

end ZeroEmbedded.RustSpsc
