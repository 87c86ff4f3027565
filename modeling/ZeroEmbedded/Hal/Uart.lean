import ZeroEmbedded.Foundation.RingRename
import ZeroEmbedded.Sync.Spsc

/-!
# The serial port

`uart.c`. A port writes to one byte queue and reads from another one; the other
ends of the queues belong to the line. The calls are those of the queues with
tests of their own, and every one keeps the contract of its end of the ring.

## Implementation notes

Spans have a non-null data pointer. The configuration and the interrupt handler,
which has no body, do nothing to the queues.
-/

namespace ZeroEmbedded.Uart

open Foundation Spsc
open Foundation.Threads (Completed)

variable {T : Target}

/-- `fw_uart_t`. -/
structure FwUart (T : Target) where
  hardwareInstance : Nat
  txQueue : Option (FwSpsc T)
  rxQueue : Option (FwSpsc T)
  isInitialized : Bool

/-- `fw_uart_init`. -/
def fwUartInit (hwInst : Nat) (txQ rxQ : Option (FwSpsc T)) : FwUart T where
  hardwareInstance := hwInst
  txQueue := txQ
  rxQueue := rxQ
  isInitialized := true

/-- `fw_uart_write`. -/
def fwUartWrite (uart : FwUart T) (data : List UInt8) : RingProgram UInt8 Nat :=
  if uart.isInitialized = false ∨ data.length = 0 then .ret 0
  else
    match uart.txQueue with
    | some q => fwSpscWrite q data
    | none => .ret 0

/-- `fw_uart_read` into a span of `length` bytes, and the bytes it stores. -/
def fwUartRead (uart : FwUart T) (length : Nat) : RingProgram UInt8 (Nat × List UInt8) :=
  if uart.isInitialized = false ∨ length = 0 then .ret (0, [])
  else
    match uart.rxQueue with
    | some q => fwSpscRead q length
    | none => .ret (0, [])

/-- `fw_uart_mock_inject_rx`. -/
def fwUartMockInjectRx (uart : FwUart T) (byte : UInt8) : RingProgram UInt8 Unit :=
  match uart.rxQueue with
  | some q => (fwSpscPush q byte).bind fun _ => .ret ()
  | none => .ret ()

/-- `fw_uart_mock_extract_tx` and the byte it stores. -/
def fwUartMockExtractTx (uart : FwUart T) : RingProgram UInt8 (Bool × Option UInt8) :=
  match uart.txQueue with
  | some q => (fwSpscPop q).bind fun popped => .ret (decide (popped.1 = .ok), popped.2)
  | none => .ret (false, none)

/-- An initialised port with both queues. -/
structure FwUart.Ready (uart : FwUart T) (tx rx : FwSpsc T) : Prop where
  isInitialized : uart.isInitialized = true
  txQueue : uart.txQueue = some tx
  rxQueue : uart.rxQueue = some rx

theorem fwUartInit_ready (hwInst : Nat) (tx rx : FwSpsc T) :
    (fwUartInit hwInst (some tx) (some rx)).Ready tx rx := ⟨rfl, rfl, rfl⟩

/-- The calls on the transmit queue: of the program and of the line. -/
inductive TxCall
  | write (data : List UInt8)
  | extract

/-- What they return and store. -/
inductive TxResult
  | write (written : Nat)
  | extract (found : Bool) (outByte : Option UInt8)

/-- The calls on the receive queue: of the line and of the program. -/
inductive RxCall
  | inject (byte : UInt8)
  | read (length : Nat)

/-- What they return and store. -/
inductive RxResult
  | inject
  | read (count : Nat) (dst : List UInt8)

/-- The result of a call on the transmit queue, by the result of the call that it makes. -/
def TxResult.ofSpsc : SpscResult → TxResult
  | .write written => .write written
  | .pop status outByte => .extract (decide (status = .ok)) outByte
  | _ => .write 0

/-- The result of a call on the receive queue, by the result of the call that it makes. -/
def RxResult.ofSpsc : SpscResult → RxResult
  | .read count dst => .read count dst
  | _ => .inject

def TxCall.side : TxCall → RingEnd
  | write _ => .producer
  | extract => .consumer

def RxCall.side : RxCall → RingEnd
  | inject _ => .producer
  | read _ => .consumer

def TxCall.program (uart : FwUart T) : TxCall → RingProgram UInt8 TxResult
  | write data => (fwUartWrite uart data).bind fun written => .ret (.write written)
  | extract => (fwUartMockExtractTx uart).bind fun out => .ret (.extract out.1 out.2)

def RxCall.program (uart : FwUart T) : RxCall → RingProgram UInt8 RxResult
  | inject byte => (fwUartMockInjectRx uart byte).bind fun _ => .ret .inject
  | read length => (fwUartRead uart length).bind fun out => .ret (.read out.1 out.2)

/-- A completed call on the transmit queue. -/
abbrev TxEvent := Completed (RingBuffer UInt8) TxCall TxResult

/-- A completed call on the receive queue. -/
abbrev RxEvent := Completed (RingBuffer UInt8) RxCall RxResult

/-- The bytes that a write has accepted. -/
def written (d : TxEvent) : List UInt8 :=
  match d.op, d.result with
  | .write data, .write n => data.take n
  | _, _ => []

/-- The byte that the line has taken. -/
def extracted (d : TxEvent) : List UInt8 :=
  match d.result with
  | .extract true outByte => outByte.toList
  | _ => []

/-- The byte that the line has put in, unless the queue was full at its loads. -/
def injected (q : FwSpsc T) (d : RxEvent) : List UInt8 :=
  match d.op with
  | .inject byte => if (q.content d.seen).length = q.capacity then [] else [byte]
  | .read _ => []

/-- The bytes that a read has returned. -/
def received (d : RxEvent) : List UInt8 :=
  match d.result with
  | .read count dst => dst.take count
  | .inject => []

/-- What a completed call on the transmit queue returns. -/
def TxMeets (q : FwSpsc T) (d : TxEvent) : Prop :=
  match d.op, d.result with
  | .write data, .write n => n = min data.length (q.capacity - (q.content d.seen).length)
  | .extract, .extract found outByte =>
      found = decide (q.content d.seen ≠ []) ∧ outByte = (q.content d.seen).head?
  | _, _ => False

/-- What a completed call on the receive queue returns. -/
def RxMeets (q : FwSpsc T) (d : RxEvent) : Prop :=
  match d.op, d.result with
  | .inject _, .inject => True
  | .read length, .read count dst =>
      count = min length (q.content d.seen).length ∧ dst = (q.content d.seen).take count
  | _, _ => False

namespace FwUart

variable (uart : FwUart T) (q : FwSpsc T)

/-- The calls of a port on its transmit queue `q`. -/
def txCalls : RingCalls UInt8 TxCall TxResult where
  size := q.size
  side := TxCall.side
  program := TxCall.program uart
  element _ := True
  accepted := written
  delivered := extracted
  meets := TxMeets q

/-- The calls of a port on its receive queue `q`. -/
def rxCalls : RingCalls UInt8 RxCall RxResult where
  size := q.size
  side := RxCall.side
  program := RxCall.program uart
  element _ := True
  accepted := injected q
  delivered := received
  meets := RxMeets q

variable {uart q} {tx rx : FwSpsc T}

namespace Ready

/-- A write of nothing is answered before the queue is looked at, here and there. -/
theorem write_eq (h : uart.Ready tx rx) (data : List UInt8) :
    fwUartWrite uart data = fwSpscWrite tx data := by
  rw [fwUartWrite, h.isInitialized, h.txQueue]
  by_cases hzero : data.length = 0
  · rw [if_pos (Or.inr hzero), fwSpscWrite, if_pos hzero]
    rfl
  · rw [if_neg (by simp [hzero])]

theorem read_eq (h : uart.Ready tx rx) (length : Nat) :
    fwUartRead uart length = fwSpscRead rx length := by
  rw [fwUartRead, h.isInitialized, h.rxQueue]
  by_cases hzero : length = 0
  · rw [if_pos (Or.inr hzero), fwSpscRead, if_pos hzero]
    rfl
  · rw [if_neg (by simp [hzero])]

theorem txProgram_write (h : uart.Ready tx rx) (data : List UInt8) :
    (uart.txCalls tx).program (.write data) =
      (tx.calls.program (.write data)).bind fun a => .ret (TxResult.ofSpsc a) := by
  change (fwUartWrite uart data).bind _ = (Program.bind (fwSpscWrite tx data) _).bind _
  rw [h.write_eq]
  exact (Program.bind_ret_bind (fwSpscWrite tx data) SpscResult.write TxResult.ofSpsc).symm

theorem passesOn_write (uart : FwUart T) (data : List UInt8) :
    tx.calls.PassesOn (uart.txCalls tx) .producer (.write data) (.write data) TxResult.ofSpsc
      fun _ => True where
  size_eq := rfl
  element_eq := rfl
  stable _ _ _ _ := trivial
  quiet _ _ _ _ := trivial
  meets a seen _ hmeets := by
    cases a with
    | write n => exact hmeets
    | push | pop | read => exact False.elim hmeets
  accepted_eq a seen hmeets := by
    cases a with
    | write n => rfl
    | push | pop | read => exact False.elim hmeets
  delivered_eq a seen hmeets := by
    cases a with
    | write n => rfl
    | push | pop | read => exact False.elim hmeets

theorem txProgram_extract (h : uart.Ready tx rx) :
    (uart.txCalls tx).program .extract =
      (tx.calls.program .pop).bind fun a => .ret (TxResult.ofSpsc a) := by
  change (fwUartMockExtractTx uart).bind _ = (Program.bind (fwSpscPop tx) _).bind _
  rw [fwUartMockExtractTx, h.txQueue]
  have hleft := Program.bind_ret_bind (fwSpscPop tx)
    (fun popped => (decide (popped.1 = FwStatus.ok), popped.2))
    fun out => TxResult.extract out.1 out.2
  exact hleft.trans (Program.bind_ret_bind (fwSpscPop tx)
    (fun out => SpscResult.pop out.1 out.2) TxResult.ofSpsc).symm

theorem passesOn_extract (uart : FwUart T) :
    tx.calls.PassesOn (uart.txCalls tx) .consumer .pop .extract TxResult.ofSpsc
      fun _ => True where
  size_eq := rfl
  element_eq := rfl
  stable _ _ _ _ := trivial
  quiet _ _ _ _ := trivial
  meets a seen _ hmeets := by
    cases a with
    | pop status outByte =>
        obtain ⟨hstatus, hout⟩ := hmeets
        refine ⟨?_, hout⟩
        dsimp only at hstatus ⊢
        by_cases hempty : tx.content seen = []
        · rw [if_pos hempty] at hstatus
          rw [hstatus, hempty]
          rfl
        · rw [if_neg hempty] at hstatus
          rw [hstatus, decide_eq_true rfl, decide_eq_true hempty]
    | push | write | read => exact False.elim hmeets
  accepted_eq a seen hmeets := by
    cases a with
    | pop status outByte => rfl
    | push | write | read => exact False.elim hmeets
  delivered_eq a seen hmeets := by
    cases a with
    | pop status outByte => cases status <;> rfl
    | push | write | read => exact False.elim hmeets

theorem rxProgram_inject (h : uart.Ready tx rx) (byte : UInt8) :
    (uart.rxCalls rx).program (.inject byte) =
      (rx.calls.program (.push byte)).bind fun a => .ret (RxResult.ofSpsc a) := by
  change (fwUartMockInjectRx uart byte).bind _ = (Program.bind (fwSpscPush rx byte) _).bind _
  rw [fwUartMockInjectRx, h.rxQueue]
  have hleft := Program.bind_ret_bind (fwSpscPush rx byte) (fun _ => ()) fun _ => RxResult.inject
  exact hleft.trans
    (Program.bind_ret_bind (fwSpscPush rx byte) SpscResult.push RxResult.ofSpsc).symm

theorem passesOn_inject (uart : FwUart T) (byte : UInt8) :
    rx.calls.PassesOn (uart.rxCalls rx) .producer (.push byte) (.inject byte) RxResult.ofSpsc
      fun _ => True where
  size_eq := rfl
  element_eq := rfl
  stable _ _ _ _ := trivial
  quiet _ _ _ _ := trivial
  meets a seen _ hmeets := by
    cases a with
    | push status => trivial
    | write | pop | read => exact False.elim hmeets
  accepted_eq a seen hmeets := by
    cases a with
    | push status =>
        change status = _ at hmeets
        change (if (rx.content seen).length = rx.capacity then [] else [byte]) = _
        rw [hmeets]
        split <;> rfl
    | write | pop | read => exact False.elim hmeets
  delivered_eq a seen hmeets := by
    cases a with
    | push status => rfl
    | write | pop | read => exact False.elim hmeets

theorem rxProgram_read (h : uart.Ready tx rx) (length : Nat) :
    (uart.rxCalls rx).program (.read length) =
      (rx.calls.program (.read length)).bind fun a => .ret (RxResult.ofSpsc a) := by
  change (fwUartRead uart length).bind _ = (Program.bind (fwSpscRead rx length) _).bind _
  rw [h.read_eq]
  exact (Program.bind_ret_bind (fwSpscRead rx length) (fun out => SpscResult.read out.1 out.2)
    RxResult.ofSpsc).symm

theorem passesOn_read (uart : FwUart T) (length : Nat) :
    rx.calls.PassesOn (uart.rxCalls rx) .consumer (.read length) (.read length) RxResult.ofSpsc
      fun _ => True where
  size_eq := rfl
  element_eq := rfl
  stable _ _ _ _ := trivial
  quiet _ _ _ _ := trivial
  meets a seen _ hmeets := by
    cases a with
    | read count dst => exact hmeets
    | push | pop | write => exact False.elim hmeets
  accepted_eq a seen hmeets := by
    cases a with
    | read count dst => rfl
    | push | pop | write => exact False.elim hmeets
  delivered_eq a seen hmeets := by
    cases a with
    | read count dst => rfl
    | push | pop | write => exact False.elim hmeets

/-- Every call on the transmit queue keeps the contract of its end. -/
theorem txStarts (h : uart.Ready tx rx) (op : TxCall) (s : RingBuffer UInt8) :
    (uart.txCalls tx).contract.Starts (uart.txCalls tx).threads op s := by
  cases op with
  | write data =>
      exact (passesOn_write uart data).starts trivial rfl rfl (h.txProgram_write data)
        (FwSpsc.starts _ s)
  | extract =>
      exact (passesOn_extract uart).starts trivial rfl rfl h.txProgram_extract
        (FwSpsc.starts _ s)

/-- Every call on the receive queue keeps the contract of its end. -/
theorem rxStarts (h : uart.Ready tx rx) (op : RxCall) (s : RingBuffer UInt8) :
    (uart.rxCalls rx).contract.Starts (uart.rxCalls rx).threads op s := by
  cases op with
  | inject byte =>
      exact (passesOn_inject uart byte).starts trivial rfl rfl (h.rxProgram_inject byte)
        (FwSpsc.starts _ s)
  | read length =>
      exact (passesOn_read uart length).starts trivial rfl rfl (h.rxProgram_read length)
        (FwSpsc.starts _ s)

end Ready

end FwUart

end ZeroEmbedded.Uart
