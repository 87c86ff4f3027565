import ZeroEmbedded.Foundation.RingRename
import ZeroEmbedded.Sync.Spsc

/-!
# Questions about a shared byte queue

The inline functions of `spsc.h` load both counters while the other side may
move its own. The order of the two loads is open in C. An answer may be out of
date when it arrives, but in one direction only: the producer has at least the
room that it was told, and the consumer at least the bytes.

## Implementation notes

A call here asks a question and then makes a call of `spsc.c`, with any steps of
the other side before, between and after the accesses of both.
-/

namespace ZeroEmbedded.Spsc

open Foundation
open Foundation.Threads (Completed)

variable {T : Target}

/-- `fw_spsc_count`. -/
def fwSpscCount (T : Target) (headFirst : Bool) : RingProgram UInt8 Nat :=
  (RingCalls.loadBoth headFirst).bind fun (head, tail) => .ret (T.sizeSub head tail)

/-- `fw_spsc_available`. -/
def fwSpscAvailable (q : FwSpsc T) (headFirst : Bool) : RingProgram UInt8 Nat :=
  (RingCalls.loadBoth headFirst).bind fun (head, tail) =>
    .ret (T.sizeSub q.capacity (T.sizeSub head tail))

/-- `fw_spsc_is_empty`. -/
def fwSpscIsEmpty (headFirst : Bool) : RingProgram UInt8 Bool :=
  (RingCalls.loadBoth headFirst).bind fun (head, tail) => .ret (decide (head = tail))

/-- `fw_spsc_is_full`. -/
def fwSpscIsFull (q : FwSpsc T) (headFirst : Bool) : RingProgram UInt8 Bool :=
  (RingCalls.loadBoth headFirst).bind fun (head, tail) =>
    .ret (decide (T.sizeSub head tail ≥ q.capacity))

inductive SpscQuery
  | count
  | available
  | isEmpty
  | isFull

inductive SpscAnswer
  | count (n : Nat)
  | available (n : Nat)
  | isEmpty (empty : Bool)
  | isFull (full : Bool)
  deriving DecidableEq

def SpscQuery.program (q : FwSpsc T) (headFirst : Bool) : SpscQuery → RingProgram UInt8 SpscAnswer
  | count => (fwSpscCount T headFirst).bind fun n => .ret (.count n)
  | available => (fwSpscAvailable q headFirst).bind fun n => .ret (.available n)
  | isEmpty => (fwSpscIsEmpty headFirst).bind fun empty => .ret (.isEmpty empty)
  | isFull => (fwSpscIsFull q headFirst).bind fun full => .ret (.isFull full)

/-- A question and the call behind it. -/
structure AskingCall where
  headFirst : Bool
  query : SpscQuery
  call : SpscCall

def AskingCall.program (q : FwSpsc T) (op : AskingCall) :
    RingProgram UInt8 (SpscAnswer × SpscResult) :=
  (op.query.program q op.headFirst).bind fun answer =>
    (op.call.program q).bind fun result => .ret (answer, result)

abbrev AskingEvent := Completed (RingBuffer UInt8) AskingCall (SpscAnswer × SpscResult)

/-- The call of an event without its question. -/
def callOf (d : AskingEvent) : SpscEvent := ⟨d.op.call, d.result.2, d.seen⟩

/-- The call does what the answer to its own side promised. -/
def KeptPromise (q : FwSpsc T) : SpscCall → SpscAnswer → SpscResult → Prop
  | .push _, .available n, .push status => 0 < n → status = .ok
  | .push _, .count n, .push status => n < q.capacity → status = .ok
  | .push _, .isFull full, .push status => full = false → status = .ok
  | .push _, .isEmpty empty, .push status => empty = true → status = .ok
  | .write src, .available n, .write written => min src.length n ≤ written
  | .write src, .count n, .write written => min src.length (q.capacity - n) ≤ written
  | .write src, .isFull full, .write written => full = false → 0 < src.length → 0 < written
  | .write src, .isEmpty empty, .write written => empty = true → written = min src.length q.capacity
  | .pop, .available n, .pop status _ => n < q.capacity → status = .ok
  | .pop, .count n, .pop status _ => 0 < n → status = .ok
  | .pop, .isFull full, .pop status _ => full = true → status = .ok
  | .pop, .isEmpty empty, .pop status _ => empty = false → status = .ok
  | .read maxCount, .available n, .read count _ => min maxCount (q.capacity - n) ≤ count
  | .read maxCount, .count n, .read count _ => min maxCount n ≤ count
  | .read maxCount, .isFull full, .read count _ => full = true → count = min maxCount q.capacity
  | .read maxCount, .isEmpty empty, .read count _ => empty = false → 0 < maxCount → 0 < count
  | _, _, _ => False

/-- What the answer says when `n` bytes are in the queue. -/
def SpscQuery.answerFor (q : FwSpsc T) (n : Nat) : SpscQuery → SpscAnswer
  | count => .count n
  | available => .available (q.capacity - n)
  | isEmpty => .isEmpty (decide (n = 0))
  | isFull => .isFull (decide (q.capacity ≤ n))

namespace FwSpsc

variable (q : FwSpsc T)

/-- The calls with questions on the queue `q`. -/
def askingCalls : RingCalls UInt8 AskingCall (SpscAnswer × SpscResult) where
  size := q.size
  side op := op.call.side
  program := AskingCall.program q
  element _ := True
  accepted d := Spsc.accepted (callOf d)
  delivered d := returned (callOf d)
  meets d := q.Meets (callOf d) ∧ KeptPromise q d.op.call d.result.1 d.result.2

end FwSpsc

variable {q : FwSpsc T} {r s t : RingBuffer UInt8} {queue : List UInt8} {n : Nat}
  {call : SpscCall} {result : SpscResult}

/-- A question answers by the number of bytes in the queue when it has the counters of it. -/
theorem SpscQuery.program_eq (query : SpscQuery) (headFirst : Bool) :
    ∃ answer : Nat × Nat → SpscAnswer,
      query.program q headFirst = (RingCalls.loadBoth headFirst).bind (fun p => .ret (answer p)) ∧
      ∀ t queue, q.calls.Stores t queue →
        answer (t.head, t.tail) = query.answerFor q queue.length := by
  cases query with
  | count =>
      refine ⟨fun p => .count (T.sizeSub p.1 p.2), Program.bind_ret_bind _ _ _, ?_⟩
      intro t queue hq
      dsimp only
      rw [FwSpsc.sizeSub_eq hq]
      rfl
  | available =>
      refine ⟨fun p => .available (T.sizeSub q.capacity (T.sizeSub p.1 p.2)),
        Program.bind_ret_bind _ _ _, ?_⟩
      intro t queue hq
      have hle : queue.length ≤ q.capacity := hq.holds.length_le
      dsimp only
      rw [FwSpsc.sizeSub_eq hq, T.sizeSub_of_le hle q.capacity_lt]
      rfl
  | isEmpty =>
      refine ⟨fun p => .isEmpty (decide (p.1 = p.2)), Program.bind_ret_bind _ _ _, ?_⟩
      intro t queue hq
      have hiff : t.head = t.tail ↔ queue.length = 0 := by
        rw [eq_comm, hq.holds.empty_iff, List.length_eq_zero_iff]
      dsimp only
      rw [decide_eq_decide.mpr hiff]
      rfl
  | isFull =>
      refine ⟨fun p => .isFull (decide (T.sizeSub p.1 p.2 ≥ q.capacity)),
        Program.bind_ret_bind _ _ _, ?_⟩
      intro t queue hq
      dsimp only
      rw [FwSpsc.sizeSub_eq hq]
      rfl

/-- The producer has the room that it was told, when at most as many bytes are queued as then. -/
theorem keptPromise_of_atMost (query : SpscQuery) (hside : call.side = .producer)
    (hfact : q.calls.AtMost n s) (hmeets : q.Meets ⟨call, result, s⟩) :
    KeptPromise q call (query.answerFor q n) result := by
  obtain ⟨queue, hq, hle⟩ := hfact
  have hlength : queue.length ≤ q.capacity := hq.holds.length_le
  cases call with
  | pop | read => cases hside
  | push byte =>
      cases result with
      | write | pop | read => exact hmeets.elim
      | push status =>
          change status = ite _ _ _ at hmeets
          rw [FwSpsc.content_eq hq] at hmeets
          have hok : queue.length < q.capacity → status = .ok := fun hlt =>
            hmeets.trans (if_neg (Nat.ne_of_lt hlt))
          cases query with
          | count => exact fun hlt => hok (by omega)
          | available => exact fun hpos => hok (by omega)
          | isEmpty =>
              intro hempty
              have hzero : n = 0 := of_decide_eq_true hempty
              have hpos : 0 < q.capacity := q.size.capacity_pos
              exact hok (by omega)
          | isFull =>
              intro hfull
              have hlt : ¬ q.capacity ≤ n := of_decide_eq_false hfull
              exact hok (by omega)
  | write src =>
      cases result with
      | push | pop | read => exact hmeets.elim
      | write written =>
          change written = min src.length (q.capacity - (q.content s).length) at hmeets
          rw [FwSpsc.content_eq hq] at hmeets
          cases query with
          | count =>
              change min src.length (q.capacity - n) ≤ written
              omega
          | available =>
              change min src.length (q.capacity - n) ≤ written
              omega
          | isEmpty =>
              intro hempty
              have hzero : n = 0 := of_decide_eq_true hempty
              omega
          | isFull =>
              intro hfull hsrc
              have hlt : ¬ q.capacity ≤ n := of_decide_eq_false hfull
              omega

/-- The consumer finds the bytes that it was told, when at least as many are queued as then. -/
theorem keptPromise_of_atLeast (query : SpscQuery) (hside : call.side = .consumer)
    (hfact : q.calls.AtLeast n s) (hmeets : q.Meets ⟨call, result, s⟩) :
    KeptPromise q call (query.answerFor q n) result := by
  obtain ⟨queue, hq, hle⟩ := hfact
  have hlength : queue.length ≤ q.capacity := hq.holds.length_le
  have hcapacity : 0 < q.capacity := q.size.capacity_pos
  cases call with
  | push | write => cases hside
  | pop =>
      cases result with
      | push | write | read => exact hmeets.elim
      | pop status outByte =>
          obtain ⟨hstatus, -⟩ := hmeets
          dsimp only at hstatus
          rw [FwSpsc.content_eq hq] at hstatus
          have hok : 0 < queue.length → status = .ok := fun hpos =>
            hstatus.trans (if_neg (List.ne_nil_of_length_pos hpos))
          cases query with
          | count => exact fun hpos => hok (by omega)
          | available =>
              intro hlt
              exact hok (by omega)
          | isEmpty =>
              intro hempty
              have hpos : ¬ n = 0 := of_decide_eq_false hempty
              exact hok (by omega)
          | isFull =>
              intro hfull
              have hle : q.capacity ≤ n := of_decide_eq_true hfull
              exact hok (by omega)
  | read maxCount =>
      cases result with
      | push | write | pop => exact hmeets.elim
      | read count dst =>
          obtain ⟨hcount, -⟩ := hmeets
          dsimp only at hcount
          rw [FwSpsc.content_eq hq] at hcount
          cases query with
          | count =>
              change min maxCount n ≤ count
              omega
          | available =>
              change min maxCount (q.capacity - (q.capacity - n)) ≤ count
              omega
          | isEmpty =>
              intro hempty hmax
              have hpos : ¬ n = 0 := of_decide_eq_false hempty
              omega
          | isFull =>
              intro hfull
              have hle : q.capacity ≤ n := of_decide_eq_true hfull
              omega

/-- A call behind the answer of a producer passes the call on while the room does not shrink. -/
theorem FwSpsc.passesOn_producer (op : AskingCall) (hside : op.call.side = .producer) (n : Nat) :
    q.calls.PassesOn q.askingCalls .producer op.call op (fun a => (op.query.answerFor q n, a))
      (q.calls.AtMost n) where
  size_eq := rfl
  element_eq := rfl
  stable _ _ := RingCalls.AtMost.stable
  quiet _ _ := RingCalls.AtMost.quiet
  meets _ _ hfact hmeets := ⟨hmeets, keptPromise_of_atMost op.query hside hfact hmeets⟩
  accepted_eq _ _ _ := rfl
  delivered_eq _ _ _ := rfl

/-- A call behind the answer of a consumer passes the call on while the bytes do not get fewer. -/
theorem FwSpsc.passesOn_consumer (op : AskingCall) (hside : op.call.side = .consumer) (n : Nat) :
    q.calls.PassesOn q.askingCalls .consumer op.call op (fun a => (op.query.answerFor q n, a))
      (q.calls.AtLeast n) where
  size_eq := rfl
  element_eq := rfl
  stable _ _ := RingCalls.AtLeast.stable
  quiet _ _ := RingCalls.AtLeast.quiet
  meets _ _ hfact hmeets := ⟨hmeets, keptPromise_of_atLeast op.query hside hfact hmeets⟩
  accepted_eq _ _ _ := rfl
  delivered_eq _ _ _ := rfl

/-- A question and a call keep the contract of their side. -/
theorem FwSpsc.askingStarts (op : AskingCall) (s : RingBuffer UInt8) :
    q.askingCalls.contract.Starts q.askingCalls.threads op s := by
  obtain ⟨answer, hprogram, hanswer⟩ := op.query.program_eq op.headFirst
  have hop : q.askingCalls.program op = (RingCalls.loadBoth op.headFirst).bind fun p =>
      (op.call.program q).bind fun result => .ret (answer p, result) := by
    change (op.query.program q op.headFirst).bind _ = _
    rw [hprogram]
    exact Program.bind_assoc (RingCalls.loadBoth op.headFirst) (fun p => .ret (answer p))
      fun answer => (op.call.program q).bind fun result => .ret (answer, result)
  have hstart := fun t => FwSpsc.starts (q := q) op.call t
  change q.askingCalls.contract.After q.askingCalls.threads op.call.side op
    (q.askingCalls.program op) s s s
  rw [hop]
  cases hside : op.call.side with
  | producer =>
      apply RingCalls.producer_asks
      intro t u queue items hq hcons
      have hpass := FwSpsc.passesOn_producer (q := q) op hside queue.length
      have hstores := hpass.stores_iff.mp hq
      have hnow : q.calls.AtMost queue.length t := ⟨queue, hstores, Nat.le_refl _⟩
      have hlater := hnow.consumes (hpass.consumes_iff.mp hcons)
      have hafter := hstart u
      change q.calls.contract.After q.calls.threads op.call.side op.call _ u u u at hafter
      rw [hside] at hafter
      rw [hanswer t queue hstores]
      exact hpass.after hlater hafter
  | consumer =>
      apply RingCalls.consumer_asks
      intro t u queue items hq hprod
      have hpass := FwSpsc.passesOn_consumer (q := q) op hside queue.length
      have hstores := hpass.stores_iff.mp hq
      have hnow : q.calls.AtLeast queue.length t := ⟨queue, hstores, Nat.le_refl _⟩
      have hlater := hnow.produces (hpass.produces_iff.mp hprod)
      have hafter := hstart u
      change q.calls.contract.After q.calls.threads op.call.side op.call _ u u u at hafter
      rw [hside] at hafter
      rw [hanswer t queue hstores]
      exact hpass.after hlater hafter

/-- Under every interleaving of the accesses of both sides, an answer keeps its promise to the call
behind it: the producer finds the room and the consumer the bytes that it was told. -/
theorem fwSpscQuery_keepsPromise (q : FwSpsc T) (r : RingBuffer UInt8)
    (hr : RingBuffer.Fits q.size r) (es : List (Option AskingEvent))
    (cfg : Threads.Config RingEnd (RingCommand UInt8) RingCommand.Reply (RingBuffer UInt8)
      AskingCall (SpscAnswer × SpscResult))
    (run : Run (Threads.Step q.askingCalls.threads) (Threads.idle r) es cfg) :
    (∀ d, some d ∈ es → KeptPromise q d.op.call d.result.1 d.result.2) ∧
      q.content r ++ es.flatMap q.askingCalls.acceptedBy =
        es.flatMap q.askingCalls.deliveredBy ++ q.content cfg.shared ∧
      q.askingCalls.contract.Safe cfg := by
  have hq : q.askingCalls.Stores r (q.content r) := ⟨hr.holds, fun _ _ => trivial⟩
  obtain ⟨queue, hqueue, heq, hmeets, hsafe⟩ :=
    RingCalls.lossless (fun op s _ => FwSpsc.askingStarts op s) hq run
  have hcontent : q.content cfg.shared = queue := hqueue.holds.content_eq
  rw [hcontent]
  exact ⟨fun d hd => (hmeets d hd).2, heq, hsafe⟩

/-- The main loop is told of one byte while the interrupt is about to write three. -/
def asked : List (Threads.Turn RingEnd AskingCall) :=
  [.start ⟨true, .count, .read 4⟩, .exec .consumer, .start ⟨false, .available, .write [4, 5, 6]⟩,
    .exec .producer, .exec .producer, .exec .producer, .exec .producer, .exec .producer,
    .exec .producer, .exec .consumer, .exec .producer, .exec .consumer, .exec .consumer,
    .exec .consumer, .exec .consumer, .exec .consumer]

theorem fwSpscQuery_keepsPromise_sample :
    let run := Run.play wrapping.askingCalls.threads.turn asked (Threads.idle wrappingRing)
    run.1.flatMap wrapping.askingCalls.deliveredBy = [1, 4, 5, 6] ∧
      run.1.filterMap (fun e => e.map fun d => d.result.1) = [.available 3, .count 1] ∧
      ∀ d, some d ∈ run.1 → KeptPromise wrapping d.op.call d.result.1 d.result.2 :=
  ⟨by decide +kernel, by decide +kernel,
    (fwSpscQuery_keepsPromise wrapping wrappingRing ⟨rfl, by decide, by decide, by decide⟩ _ _
      (Run.play_run wrapping.askingCalls.threads.turn_step asked (Threads.idle wrappingRing))).1⟩

end ZeroEmbedded.Spsc
