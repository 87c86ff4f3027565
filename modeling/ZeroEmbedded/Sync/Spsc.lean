import ZeroEmbedded.Foundation.RingThreads
import ZeroEmbedded.Types

/-!
# The byte queue between an interrupt and the main loop

The four calls of `spsc.c` as programs over the volatile counters and the
buffer. An interrupt may come between any two accesses, so the calls of the
producer and of the consumer interleave access by access; a complete call
between two accesses of the other one is a special case.

## Implementation notes

Pointer arguments are values, so the null tests have no counterpart. Every
`memcpy` is one access. The bytes stored through `out_byte` and `dst` are part
of the result.
-/

namespace ZeroEmbedded.Spsc

open Foundation
open Foundation.Threads (Completed)

variable {T : Target}

/-- The constant members of `fw_spsc_t`, as `fw_spsc_init` sets them. -/
structure FwSpsc (T : Target) where
  capacity : Nat
  mask : Nat
  capacity_pow : ∃ k, capacity = 2 ^ k
  capacity_lt : capacity < T.sizeMod
  mask_eq : mask = capacity - 1

/-- `fw_spsc_init`. -/
def fwSpscInit (buffer : List UInt8) (capacity : Nat) (hsize : capacity < T.sizeMod) :
    Except FwStatus (FwSpsc T × RingBuffer UInt8) :=
  if hpos : capacity = 0 then .error .errInvalidArg
  else if hpow : capacity &&& (capacity - 1) = 0 then
    .ok (⟨capacity, capacity - 1, PowerOfTwo.pow_of_and_pred hpos hpow, hsize, rfl⟩, ⟨buffer, 0, 0⟩)
  else .error .errInvalidArg

/-- `fw_spsc_push`. -/
def fwSpscPush (q : FwSpsc T) (byte : UInt8) : RingProgram UInt8 FwStatus := do
  let head ← RingProgram.loadHead
  let tail ← RingProgram.loadTail
  if T.sizeSub head tail ≥ q.capacity then return .errBufferOverflow
  RingProgram.writeSlots (head &&& q.mask) [byte]
  RingProgram.storeHead (T.size (head + 1))
  return .ok

/-- `fw_spsc_pop` and the byte it stores. -/
def fwSpscPop (q : FwSpsc T) : RingProgram UInt8 (FwStatus × Option UInt8) := do
  let tail ← RingProgram.loadTail
  let head ← RingProgram.loadHead
  if tail = head then return (.errNotFound, none)
  let bytes ← RingProgram.readSlots (tail &&& q.mask) 1
  RingProgram.storeTail (T.size (tail + 1))
  return (.ok, bytes.head?)

/-- `fw_spsc_write` of the `count` bytes of `src`. -/
def fwSpscWrite (q : FwSpsc T) (src : List UInt8) : RingProgram UInt8 Nat := do
  let count := src.length
  if count = 0 then return 0
  let head ← RingProgram.loadHead
  let tail ← RingProgram.loadTail
  let available := T.sizeSub q.capacity (T.sizeSub head tail)
  let toWrite := if count < available then count else available
  if toWrite = 0 then return 0
  let idx := head &&& q.mask
  let chunk1 := if T.sizeSub q.capacity idx > toWrite then toWrite else T.sizeSub q.capacity idx
  RingProgram.writeSlots idx (src.take chunk1)
  let chunk2 := T.sizeSub toWrite chunk1
  if chunk2 > 0 then RingProgram.writeSlots 0 ((src.drop chunk1).take chunk2)
  RingProgram.storeHead (T.size (head + toWrite))
  return toWrite

/-- `fw_spsc_read` and the bytes it stores. -/
def fwSpscRead (q : FwSpsc T) (maxCount : Nat) : RingProgram UInt8 (Nat × List UInt8) := do
  if maxCount = 0 then return (0, [])
  let tail ← RingProgram.loadTail
  let head ← RingProgram.loadHead
  let count := T.sizeSub head tail
  let toRead := if maxCount < count then maxCount else count
  if toRead = 0 then return (0, [])
  let idx := tail &&& q.mask
  let chunk1 := if T.sizeSub q.capacity idx > toRead then toRead else T.sizeSub q.capacity idx
  let first ← RingProgram.readSlots idx chunk1
  let chunk2 := T.sizeSub toRead chunk1
  let second ← if chunk2 > 0 then RingProgram.readSlots 0 chunk2 else pure []
  RingProgram.storeTail (T.size (tail + toRead))
  return (toRead, first ++ second)

/-- The calls of both sides. -/
inductive SpscCall
  | push (byte : UInt8)
  | pop
  | write (src : List UInt8)
  | read (maxCount : Nat)

/-- What the calls return and store. -/
inductive SpscResult
  | push (status : FwStatus)
  | pop (status : FwStatus) (outByte : Option UInt8)
  | write (written : Nat)
  | read (count : Nat) (dst : List UInt8)

/-- The interrupt pushes and writes, the main loop pops and reads. -/
def SpscCall.side : SpscCall → RingEnd
  | push _ => .producer
  | write _ => .producer
  | pop => .consumer
  | read _ => .consumer

def SpscCall.program (q : FwSpsc T) : SpscCall → RingProgram UInt8 SpscResult
  | push byte => do return .push (← fwSpscPush q byte)
  | write src => do return .write (← fwSpscWrite q src)
  | pop => do
      let (status, outByte) ← fwSpscPop q
      return .pop status outByte
  | read maxCount => do
      let (count, dst) ← fwSpscRead q maxCount
      return .read count dst

/-- A completed call with the state of the ring at its last load. -/
abbrev SpscEvent := Completed (RingBuffer UInt8) SpscCall SpscResult

/-- The bytes that a completed call has accepted. -/
def accepted (d : SpscEvent) : List UInt8 :=
  match d.op, d.result with
  | .push byte, .push .ok => [byte]
  | .write src, .write written => src.take written
  | _, _ => []

/-- The bytes that a completed call has returned. -/
def returned (d : SpscEvent) : List UInt8 :=
  match d.result with
  | .pop .ok outByte => outByte.toList
  | .read count dst => dst.take count
  | _ => []

namespace FwSpsc

variable (q : FwSpsc T)

def size : RingSize := RingSize.ofPow q.capacity_pow T.sizeMod_pow q.capacity_lt

/-- The bytes in the queue. -/
def content (r : RingBuffer UInt8) : List UInt8 := RingBuffer.content q.size r

/-- What a completed call returns, by the state at its last load. -/
def Meets (d : SpscEvent) : Prop :=
  match d.op, d.result with
  | .push _, .push status =>
      status = if (q.content d.seen).length = q.capacity then .errBufferOverflow else .ok
  | .pop, .pop status outByte =>
      status = (if q.content d.seen = [] then .errNotFound else .ok) ∧
        outByte = (q.content d.seen).head?
  | .write src, .write written => written = min src.length (q.capacity - (q.content d.seen).length)
  | .read maxCount, .read count dst =>
      count = min maxCount (q.content d.seen).length ∧ dst = (q.content d.seen).take count
  | _, _ => False

/-- The calls on the queue `q`. -/
def calls : RingCalls UInt8 SpscCall SpscResult where
  size := q.size
  side := SpscCall.side
  program := SpscCall.program q
  element _ := True
  accepted := accepted
  delivered := returned
  meets := q.Meets

end FwSpsc


variable {q : FwSpsc T} {r s t : RingBuffer UInt8} {queue : List UInt8}

/-- `fw_spsc_init` accepts the powers of two and gives an empty queue. -/
theorem fwSpscInit_fits {buffer : List UInt8} {capacity : Nat} {hsize : capacity < T.sizeMod}
    (hbuffer : buffer.length = capacity) (hinit : fwSpscInit buffer capacity hsize = .ok (q, r)) :
    RingBuffer.Fits q.size r ∧ q.content r = [] := by
  rw [fwSpscInit] at hinit
  split at hinit
  · cases hinit
  split at hinit
  · obtain ⟨hq, rfl⟩ := Prod.mk.inj (Except.ok.inj hinit)
    apply RingBuffer.fits_empty
    rw [hbuffer, ← hq]
    rfl
  · cases hinit

/-- A counter under the mask is a slot. -/
theorem FwSpsc.and_mask (counter : Nat) : counter &&& q.mask = counter % q.size.capacity := by
  rw [q.mask_eq]
  exact PowerOfTwo.and_mask q.capacity_pow counter

theorem FwSpsc.mod_lt (counter : Nat) : counter % q.size.capacity < q.capacity :=
  Nat.mod_lt _ q.size.capacity_pos

theorem FwSpsc.content_eq (h : q.calls.Stores r queue) : q.content r = queue :=
  h.holds.content_eq

/-- The difference of the counters is the number of bytes in the queue. -/
theorem FwSpsc.sizeSub_eq (h : q.calls.Stores r queue) :
    T.sizeSub r.head r.tail = queue.length := h.holds.distance

/-- `fw_spsc_push` appends a byte unless the queue is full at its loads. -/
theorem fwSpscPush_starts (byte : UInt8) (s : RingBuffer UInt8) :
    q.calls.contract.Starts q.calls.threads (.push byte) s := by
  apply RingCalls.producer_continues rfl
  apply RingCalls.producer_loads
  intro t queue hq
  dsimp only [Program.bind]
  have hcontent := FwSpsc.content_eq hq
  by_cases hfull : T.sizeSub t.head t.tail ≥ q.capacity
  · rw [if_pos hfull]
    refine RingCalls.producer_returns ?_ rfl rfl
    rw [FwSpsc.sizeSub_eq hq] at hfull
    have hle : queue.length ≤ q.capacity := hq.holds.length_le
    change _ = ite _ _ _
    rw [hcontent, if_pos (Nat.le_antisymm hle hfull)]
  · rw [if_neg hfull]
    rw [FwSpsc.sizeSub_eq hq] at hfull
    apply RingCalls.producer_continues rfl
    have hstart : RingBuffer.Staged q.size t.head (q.capacity - queue.length) [] t :=
      hq.holds.staged
    apply RingCalls.producer_writes hq hstart
    · change 0 + 1 ≤ q.capacity - queue.length
      omega
    · exact FwSpsc.and_mask t.head
    · rw [FwSpsc.and_mask]
      exact FwSpsc.mod_lt t.head
    · rfl
    · intro u queue' hq' hstaged
      refine RingCalls.producer_publishes hq' hstaged (by change 1 ≤ _; omega) rfl
        (fun _ _ => trivial) ?_ rfl rfl
      change _ = ite _ _ _
      rw [hcontent, if_neg (by omega)]

/-- `fw_spsc_pop` removes the oldest byte unless the queue is empty at its loads. -/
theorem fwSpscPop_starts (s : RingBuffer UInt8) :
    q.calls.contract.Starts q.calls.threads .pop s := by
  apply RingCalls.consumer_continues rfl
  apply RingCalls.consumer_loads
  intro t queue hq
  dsimp only [Program.bind]
  have hcontent := FwSpsc.content_eq hq
  by_cases hempty : t.tail = t.head
  · rw [if_pos hempty]
    refine RingCalls.consumer_returns ?_ rfl rfl
    change _ = ite _ _ _ ∧ _
    rw [hcontent, hq.holds.empty_iff.mp hempty]
    exact ⟨rfl, rfl⟩
  · rw [if_neg hempty]
    cases queue with
    | nil => exact absurd (hq.holds.empty_iff.mpr rfl) hempty
    | cons byte rest =>
        apply RingCalls.consumer_continues rfl
        apply RingCalls.consumer_reads hq (hq.holds.front 1) (j := 0) (Nat.le_refl 1)
        · exact FwSpsc.and_mask t.tail
        · rw [FwSpsc.and_mask]
          exact FwSpsc.mod_lt t.tail
        · rfl
        · intro u queue' hq' hfront
          refine RingCalls.consumer_releases hq' hfront rfl ?_ rfl rfl
          change _ = ite _ _ _ ∧ _
          rw [hcontent]
          exact ⟨rfl, rfl⟩

/-- A chunk ends at the end of the buffer or with the last byte. -/
theorem FwSpsc.chunk_eq (counter n : Nat) :
    (if T.sizeSub q.capacity (counter &&& q.mask) > n then n
      else T.sizeSub q.capacity (counter &&& q.mask)) =
      min n (q.capacity - counter % q.size.capacity) := by
  have hlt := FwSpsc.mod_lt (q := q) counter
  rw [FwSpsc.and_mask, T.sizeSub_of_le (Nat.le_of_lt hlt) q.capacity_lt]
  split <;> omega

/-- `fw_spsc_write` appends as many bytes as fit at its loads. -/
theorem fwSpscWrite_starts (src : List UInt8) (s : RingBuffer UInt8) :
    q.calls.contract.Starts q.calls.threads (.write src) s := by
  change q.calls.contract.After q.calls.threads .producer _
    (SpscCall.program q (.write src)) s s s
  rw [SpscCall.program, fwSpscWrite]
  by_cases hzero : src.length = 0
  · rw [if_pos hzero]
    refine RingCalls.producer_returns ?_ rfl rfl
    change 0 = min src.length _
    omega
  rw [if_neg hzero]
  apply RingCalls.producer_continues rfl
  apply RingCalls.producer_loads
  intro t queue hq
  dsimp only [Program.bind]
  have hcontent := FwSpsc.content_eq hq
  have hle : queue.length ≤ q.capacity := hq.holds.length_le
  rw [FwSpsc.sizeSub_eq hq, T.sizeSub_of_le hle q.capacity_lt]
  have hmin : (if src.length < q.capacity - queue.length then src.length
      else q.capacity - queue.length) = min src.length (q.capacity - queue.length) := by
    split <;> omega
  rw [hmin]
  generalize hn : min src.length (q.capacity - queue.length) = n
  have hmeets : q.Meets ⟨.write src, .write n, t⟩ := by
    change n = min src.length (q.capacity - (q.content t).length)
    rw [hcontent, hn]
  by_cases hnone : n = 0
  · subst hnone
    exact RingCalls.producer_returns hmeets rfl rfl
  rw [if_neg hnone, FwSpsc.chunk_eq]
  generalize hc : min n (q.capacity - t.head % q.size.capacity) = c
  have hlt := FwSpsc.mod_lt (q := q) t.head
  have hcapacity := q.capacity_lt
  rw [T.sizeSub_of_le (by omega : c ≤ n) (by omega)]
  have hfirst : (src.take c).length = c := List.length_take_of_le (by omega)
  -- the first chunk runs from the head to the end of the buffer
  have hstart : RingBuffer.Staged q.size t.head (q.capacity - queue.length) [] t := hq.holds.staged
  apply RingCalls.producer_continues rfl
  apply RingCalls.producer_writes hq hstart
  · rw [hfirst]
    change 0 + c ≤ q.capacity - queue.length
    omega
  · exact FwSpsc.and_mask t.head
  · rw [FwSpsc.and_mask, hfirst]
    change _ ≤ q.capacity
    omega
  · split <;> rfl
  intro u queue' hq' hstaged
  dsimp only [Program.bind]
  by_cases hrest : n - c > 0
  · rw [if_pos hrest]
    -- the second chunk starts at the first slot
    have hsecond : ((src.drop c).take (n - c)).length = n - c := by
      apply List.length_take_of_le
      rw [List.length_drop]
      omega
    apply RingCalls.producer_writes hq' hstaged
    · rw [List.nil_append, hfirst, hsecond]
      omega
    · rw [List.nil_append, hfirst]
      refine (q.size.slot_wrap ?_).symm
      change _ = q.capacity
      omega
    · rw [hsecond]
      change _ ≤ q.capacity
      omega
    · rfl
    intro v queue' hq' hstaged
    rw [List.nil_append, ← List.take_add, show c + (n - c) = n by omega] at hstaged
    have htake : (src.take n).length = n := List.length_take_of_le (by omega)
    refine RingCalls.producer_publishes hq' hstaged (by omega) ?_ (fun _ _ => trivial) hmeets
      rfl rfl
    rw [htake]
    rfl
  · rw [if_neg hrest]
    have hall : c = n := by omega
    rw [hall] at hstaged hfirst
    refine RingCalls.producer_publishes hq' hstaged ?_ ?_ (fun _ _ => trivial) hmeets
      rfl rfl
    · change (src.take n).length ≤ _
      omega
    · change T.size (t.head + n) = q.size.advance t.head (src.take n).length
      rw [hfirst]
      rfl

/-- `fw_spsc_read` removes as many bytes as are there at its loads. -/
theorem fwSpscRead_starts (maxCount : Nat) (s : RingBuffer UInt8) :
    q.calls.contract.Starts q.calls.threads (.read maxCount) s := by
  change q.calls.contract.After q.calls.threads .consumer _
    (SpscCall.program q (.read maxCount)) s s s
  rw [SpscCall.program, fwSpscRead]
  by_cases hzero : maxCount = 0
  · rw [if_pos hzero]
    refine RingCalls.consumer_returns ⟨?_, rfl⟩ rfl rfl
    rw [hzero, Nat.zero_min]
  rw [if_neg hzero]
  apply RingCalls.consumer_continues rfl
  apply RingCalls.consumer_loads
  intro t queue hq
  dsimp only [Program.bind]
  have hcontent := FwSpsc.content_eq hq
  have hle : queue.length ≤ q.capacity := hq.holds.length_le
  have hmin : (if maxCount < queue.length then maxCount else queue.length) =
      min maxCount queue.length := by
    split <;> omega
  rw [FwSpsc.sizeSub_eq hq, hmin]
  generalize hn : min maxCount queue.length = n
  have hmeets : q.Meets ⟨.read maxCount, .read n (queue.take n), t⟩ := by
    change n = min maxCount (q.content t).length ∧ _ = (q.content t).take n
    rw [hcontent, hn]
    exact ⟨rfl, rfl⟩
  by_cases hnone : n = 0
  · subst hnone
    exact RingCalls.consumer_returns hmeets rfl rfl
  rw [if_neg hnone, FwSpsc.chunk_eq]
  generalize hc : min n (q.capacity - t.tail % q.size.capacity) = c
  have hlt := FwSpsc.mod_lt (q := q) t.tail
  have hcapacity := q.capacity_lt
  rw [T.sizeSub_of_le (by omega : c ≤ n) (by omega)]
  have hlen : (queue.take n).length = n := List.length_take_of_le (by omega)
  -- the first chunk runs from the tail to the end of the buffer
  apply RingCalls.consumer_continues rfl
  apply RingCalls.consumer_reads hq (hq.holds.front n) (j := 0)
  · rw [hlen]
    omega
  · exact FwSpsc.and_mask t.tail
  · rw [FwSpsc.and_mask]
    change _ ≤ q.capacity
    omega
  · split <;> rfl
  intro u queue' hq' hfront
  dsimp only [Program.bind]
  have hcounter : T.size (t.tail + n) = q.size.advance t.tail (queue.take n).length := by
    rw [hlen]
    rfl
  have htake : (queue.take n).take n = queue.take n := by rw [List.take_take, Nat.min_self]
  by_cases hrest : n - c > 0
  · rw [if_pos hrest]
    -- the second chunk starts at the first slot
    apply RingCalls.consumer_reads hq' hfront (j := c)
    · rw [hlen]
      omega
    · refine (q.size.slot_wrap ?_).symm
      change _ = q.capacity
      omega
    · change _ ≤ q.capacity
      omega
    · rfl
    intro v queue' hq' hfront
    have hall : ((queue.take n).drop 0).take c ++ ((queue.take n).drop c).take (n - c) =
        queue.take n := by
      rw [List.drop_zero, ← List.take_add, show c + (n - c) = n by omega, htake]
    dsimp only [Program.bind]
    rw [hall]
    exact RingCalls.consumer_releases hq' hfront hcounter hmeets htake rfl
  · rw [if_neg hrest]
    have hall : ((queue.take n).drop 0).take c ++ [] = queue.take n := by
      rw [List.drop_zero, List.append_nil, show c = n by omega, htake]
    rw [Program.pure_def, Program.ret_bind, hall]
    exact RingCalls.consumer_releases hq' hfront hcounter hmeets htake rfl

/-- Every call keeps the contract of its side. -/
theorem FwSpsc.starts (op : SpscCall) (s : RingBuffer UInt8) :
    q.calls.contract.Starts q.calls.threads op s := by
  cases op with
  | push byte => exact fwSpscPush_starts byte s
  | pop => exact fwSpscPop_starts s
  | write src => exact fwSpscWrite_starts src s
  | read maxCount => exact fwSpscRead_starts maxCount s

/-- Under every interleaving of the accesses of both sides, the bytes returned are the bytes
accepted in order, at most `capacity` bytes are queued, and every call decides by the queue at
its loads. -/
theorem fwSpsc_lossless (q : FwSpsc T) (r : RingBuffer UInt8) (hr : RingBuffer.Fits q.size r)
    (es : List (Option SpscEvent))
    (cfg : Threads.Config RingEnd (RingCommand UInt8) RingCommand.Reply (RingBuffer UInt8)
      SpscCall SpscResult)
    (hrun : Run (Threads.Step q.calls.threads) (Threads.idle r) es cfg) :
    q.content r ++ es.flatMap q.calls.acceptedBy =
        es.flatMap q.calls.deliveredBy ++ q.content cfg.shared ∧
      T.sizeSub cfg.shared.head cfg.shared.tail = (q.content cfg.shared).length ∧
      T.sizeSub cfg.shared.head cfg.shared.tail ≤ q.capacity ∧
      (∀ d, some d ∈ es → q.Meets d) ∧ q.calls.contract.Safe cfg := by
  have hq : q.calls.Stores r (q.content r) := ⟨hr.holds, fun _ _ => trivial⟩
  obtain ⟨queue, hqueue, heq, hmeets, hsafe⟩ :=
    RingCalls.lossless (fun op s _ => FwSpsc.starts op s) hq hrun
  have hcount := FwSpsc.sizeSub_eq hqueue
  rw [FwSpsc.content_eq hqueue, hcount]
  exact ⟨heq, rfl, hqueue.holds.length_le, hmeets, hsafe⟩

theorem four_pow : ∃ k, 4 = 2 ^ k := ⟨2, rfl⟩

/-- A queue of four bytes whose counters are about to wrap. -/
def wrapping : FwSpsc target32 := ⟨4, 3, four_pow, by decide, rfl⟩

def wrappingRing : RingBuffer UInt8 := ⟨[3, 0, 1, 2], 2 ^ 32 - 1, 2 ^ 32 - 2⟩

/-- The interrupt writes four bytes while the main loop is between the loads of a read, and
pushes one more between its two copies. -/
def preempted : List (Threads.Turn RingEnd SpscCall) :=
  [.start (.read 3), .exec .consumer, .start (.write [4, 5, 6, 7]), .exec .producer,
    .exec .producer, .exec .producer, .exec .producer, .exec .producer, .exec .consumer,
    .exec .consumer, .start (.push 8), .exec .producer, .exec .producer, .exec .consumer,
    .exec .consumer]

theorem fwSpsc_lossless_sample :
    let run := Run.play wrapping.calls.threads.turn preempted (Threads.idle wrappingRing)
    run.1.flatMap wrapping.calls.deliveredBy = [1, 4, 5] ∧
      wrapping.content run.2.shared = [6] ∧
      wrapping.content wrappingRing ++ run.1.flatMap wrapping.calls.acceptedBy =
        run.1.flatMap wrapping.calls.deliveredBy ++ wrapping.content run.2.shared :=
  ⟨by decide +kernel, by decide +kernel,
    (fwSpsc_lossless wrapping wrappingRing ⟨rfl, by decide, by decide, by decide⟩ _ _
      (Run.play_run wrapping.calls.threads.turn_step preempted (Threads.idle wrappingRing))).1⟩

end ZeroEmbedded.Spsc
