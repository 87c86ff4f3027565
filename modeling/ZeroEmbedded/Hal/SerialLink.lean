import ZeroEmbedded.Foundation.RingLink
import ZeroEmbedded.Hal.Uart

/-!
# A serial line between two ports

The line takes the bytes of the transmit queue of one port and puts them into
the receive queue of another one, or of the same one as in the loopback. Both
programs and both ends of the line run access by access in any order.
-/

namespace ZeroEmbedded.Uart

open Foundation Spsc
open Foundation.Threads (Completed Turn)

variable {T : Target}

/-- The byte that a call puts into the receive queue. -/
def RxCall.putting : RxCall → Option UInt8
  | .inject byte => some byte
  | .read _ => none

/-- A line from the transmit queue of `sender` to the receive queue of `receiver`. -/
def serialLink (sender receiver : FwUart T) (tx rx : FwSpsc T) :
    RingLink UInt8 TxCall TxResult RxCall RxResult where
  source := sender.txCalls tx
  target := receiver.rxCalls rx
  putting := RxCall.putting
  putting_side := by
    intro op x hput
    cases op with
    | inject byte => rfl
    | read length => cases hput
  accepted_cases := by
    intro d
    change injected rx d = [] ∨ injected rx d = d.op.putting.toList
    rw [injected]
    cases d.op with
    | inject byte =>
        dsimp only
        split
        · exact Or.inl rfl
        · exact Or.inr rfl
    | read length => exact Or.inl rfl

/-- The states of a line. -/
abbrev LinkState := RingLink.State UInt8 TxCall TxResult RxCall RxResult

/-- The steps of a line. -/
abbrev LinkEvent := RingLink.Event UInt8 TxCall TxResult RxCall RxResult

/-- The bytes that the writes of a history have accepted. -/
def writtenBytes (es : List LinkEvent) : List UInt8 :=
  (RingLink.sourceEvents es).flatMap fun e => e.elim [] written

/-- The bytes that the reads of a history have returned. -/
def readBytes (es : List LinkEvent) : List UInt8 :=
  (RingLink.targetEvents es).flatMap fun e => e.elim [] received

/-- The byte that a step has put in found room in the receive queue. -/
def foundRoom (rx : FwSpsc T) : Option RxEvent → Bool
  | some ⟨.inject _, _, seen⟩ => (rx.content seen).length < rx.capacity
  | _ => true

/-- No byte has found the receive queue full. -/
def NoneLost (rx : FwSpsc T) (es : List LinkEvent) : Prop :=
  ∀ e ∈ RingLink.targetEvents es, foundRoom rx e = true

/-- The bytes behind the transmit queue that no read has returned. -/
def inTransit (sender receiver : FwUart T) (tx rx : FwSpsc T) (s : LinkState) : List UInt8 :=
  rx.content s.target.shared ++ ((serialLink sender receiver tx rx).underWay s.target ++ s.wire) ++
    tx.content s.source.shared

/-- An empty queue. -/
structure Empty (q : FwSpsc T) (r : RingBuffer UInt8) : Prop where
  fits : RingBuffer.Fits q.size r
  content : q.content r = []

theorem Empty.stores {q : FwSpsc T} {r : RingBuffer UInt8} (h : Empty q r) :
    q.calls.Stores r [] := by
  have hholds := h.fits.holds
  have hcontent : RingBuffer.content q.size r = [] := h.content
  rw [hcontent] at hholds
  exact ⟨hholds, fun _ _ => trivial⟩

variable {sender receiver : FwUart T} {tx rx : FwSpsc T} {r r' : RingBuffer UInt8}
  {es : List LinkEvent} {s : LinkState}

/-- Both ports keep the contracts of their queues, so that the line delivers in order. -/
theorem serialLink_inOrder {tx' rx' : FwSpsc T} (hsender : sender.Ready tx rx')
    (hreceiver : receiver.Ready tx' rx) (hr : Empty tx r) (hr' : Empty rx r')
    (run : Run (serialLink sender receiver tx rx).Step (RingLink.idle r r') es s) :
    ∃ sent arrived, (serialLink sender receiver tx rx).InOrder s es sent arrived :=
  RingLink.inOrder (fun op s => hsender.txStarts op s) (fun op s => hreceiver.rxStarts op s)
    ⟨hr.stores.holds, fun _ _ => trivial⟩ ⟨hr'.stores.holds, fun _ _ => trivial⟩ run

/-- What is written is read or in transit, unless a byte was lost. -/
theorem written_eq {sent arrived : List UInt8}
    (h : (serialLink sender receiver tx rx).InOrder s es sent arrived) (hnone : NoneLost rx es) :
    writtenBytes es = readBytes es ++ inTransit sender receiver tx rx s := by
  have hsent : tx.content s.source.shared = sent := h.sentStores.holds.content_eq
  have harrived : rx.content s.target.shared = arrived := h.arrivedStores.holds.content_eq
  have hexact := h.exact fun d hd => by
    change injected rx d = d.op.putting.toList
    obtain ⟨op, result, seen⟩ := d
    cases op with
    | inject byte =>
        have hroom : (rx.content seen).length < rx.capacity := of_decide_eq_true (hnone _ hd)
        exact if_neg (Nat.ne_of_lt hroom)
    | read length => rfl
  rw [inTransit, hsent, harrived, ← List.append_assoc, ← List.append_assoc]
  exact hexact

/-- Under every interleaving, the bytes read are bytes written, in their order. Unless the
receive queue was full for a byte, they are the first ones and the others are in transit. The
queues hold at most their capacities and no access leaves them. -/
theorem fwUart_link_inOrder {tx' rx' : FwSpsc T} (hsender : sender.Ready tx rx')
    (hreceiver : receiver.Ready tx' rx) (hr : Empty tx r) (hr' : Empty rx r')
    (run : Run (serialLink sender receiver tx rx).Step (RingLink.idle r r') es s) :
    (readBytes es).Sublist (writtenBytes es) ∧
      (NoneLost rx es → writtenBytes es = readBytes es ++ inTransit sender receiver tx rx s) ∧
      (tx.content s.source.shared).length ≤ tx.capacity ∧
      (rx.content s.target.shared).length ≤ rx.capacity ∧
      (sender.txCalls tx).contract.Safe s.source ∧
      (receiver.rxCalls rx).contract.Safe s.target := by
  obtain ⟨sent, arrived, h⟩ := serialLink_inOrder hsender hreceiver hr hr' run
  have hsent : tx.content s.source.shared = sent := h.sentStores.holds.content_eq
  have harrived : rx.content s.target.shared = arrived := h.arrivedStores.holds.content_eq
  have hsublist : (readBytes es ++ arrived).Sublist (writtenBytes es) := h.sublist
  refine ⟨(List.sublist_append_left _ _).trans hsublist, written_eq h, ?_, ?_, h.sourceSafe,
    h.targetSafe⟩
  · rw [hsent]
    exact h.sentStores.holds.length_le
  · rw [harrived]
    exact h.arrivedStores.holds.length_le

/-- A port whose line leads back to itself. -/
def loopback : FwUart target32 := fwUartInit 0 (some wrapping) (some wrapping)

/-- An empty queue of four bytes whose counters are about to wrap. -/
def emptyRing : RingBuffer UInt8 := ⟨[0, 0, 0, 0], 2 ^ 32 - 1, 2 ^ 32 - 1⟩

theorem emptyRing_empty : Empty wrapping emptyRing :=
  ⟨⟨rfl, by decide, by decide, by decide⟩, by decide⟩

/-- Two bytes are written, and the line takes both before it puts in the first one. -/
def loopbackTurns : List (RingLink.LinkTurn TxCall RxCall) :=
  [.source (.start (.write [7, 8])), .source (.exec .producer), .source (.exec .producer),
    .source (.exec .producer), .source (.exec .producer), .source (.exec .producer),
    .source (.start .extract), .source (.exec .consumer), .source (.exec .consumer),
    .source (.exec .consumer), .source (.exec .consumer),
    .source (.start .extract), .source (.exec .consumer), .source (.exec .consumer),
    .source (.exec .consumer), .source (.exec .consumer),
    .target (.start (.inject 7)), .target (.exec .producer), .target (.start (.read 4)),
    .target (.exec .consumer), .target (.exec .producer), .target (.exec .producer),
    .target (.exec .producer), .target (.exec .consumer), .target (.exec .consumer),
    .target (.exec .consumer)]

theorem fwUart_link_inOrder_sample :
    let link := serialLink loopback loopback wrapping wrapping
    let run := Run.play link.turn loopbackTurns (RingLink.idle emptyRing emptyRing)
    writtenBytes run.1 = [7, 8] ∧ readBytes run.1 = [7] ∧ run.2.wire = [8] ∧
      (readBytes run.1).Sublist (writtenBytes run.1) := by
  have hready : loopback.Ready wrapping wrapping := fwUartInit_ready 0 wrapping wrapping
  refine ⟨by decide +kernel, by decide +kernel, by decide +kernel, ?_⟩
  exact (fwUart_link_inOrder hready hready emptyRing_empty emptyRing_empty
    (Run.play_run (fun _ choice _ _ h => ⟨choice, h⟩) loopbackTurns _)).1

end ZeroEmbedded.Uart
