import ZeroEmbedded.Hal.SerialLink
import ZeroEmbedded.Protocol.DispatcherStream

/-!
# Frames over a serial line

A program encodes frames and writes them to its port; at the other end of the
line a program reads what is there, appends it to what it has not consumed and
looks for frames. Where no byte was lost, it finds the frames that were written,
in their order.
-/

namespace ZeroEmbedded.ZeroWire

open Foundation Dispatcher Spsc Uart

/-- The data of the completed writes. -/
def writes (es : List LinkEvent) : List (List UInt8) :=
  (RingLink.sourceEvents es).filterMap fun e => e.bind fun d =>
    match d.op with
    | .write data => some data
    | .extract => none

/-- What the completed reads have returned. -/
def reads (es : List LinkEvent) : List (List UInt8) :=
  (RingLink.targetEvents es).filterMap fun e => e.bind fun d =>
    match d.op with
    | .read _ => some (received d)
    | .inject _ => none

/-- The write that a step has completed was accepted as a whole. -/
def wholeWrite : Option TxEvent → Bool
  | some ⟨.write data, .write n, _⟩ => n = data.length
  | some ⟨.write _, .extract _ _, _⟩ => false
  | _ => true

/-- Every completed write was accepted as a whole. -/
def WrittenWhole (es : List LinkEvent) : Prop :=
  ∀ e ∈ RingLink.sourceEvents es, wholeWrite e = true

/-- Draining messages one after the other delivers them and leaves nothing. -/
theorem drain_wires (msgs : List Message) :
    scanJudge.drain (msgs.flatMap Message.wire) = (msgs, []) := by
  induction msgs with
  | nil => exact Foundation.Framing.Judge.drain_of_more rfl
  | cons msg rest ih =>
      have haccept : scanJudge.verdict ((msg :: rest).flatMap Message.wire) =
          .accept msg (8 + msg.data.length) := by
        rw [List.flatMap_cons]
        exact startVerdict_of_wire_prefix (List.prefix_append _ _)
      have hdrop : ((msg :: rest).flatMap Message.wire).drop (8 + msg.data.length) =
          rest.flatMap Message.wire := by
        rw [List.flatMap_cons, ← Message.wire_length]
        exact List.drop_left
      rw [Foundation.Framing.Judge.drain_of_accept haccept, hdrop, ih]

/-- Encoded frames are the wires of messages that the frames carry. -/
theorem exists_messages {frames : List FwZerowireFrame} {encoded : List (List UInt8)}
    (h : List.Forall₂ Encodes frames encoded) :
    ∃ msgs : List Message, encoded.flatten = msgs.flatMap Message.wire ∧
      List.Forall₂ (fun frame msg => ∃ hle, msg = FwZerowireFrame.message frame hle) frames
        msgs := by
  induction h with
  | nil => exact ⟨[], rfl, List.Forall₂.nil⟩
  | cons hframe _ ih =>
      obtain ⟨msgs, hflat, hmsgs⟩ := ih
      obtain ⟨hle, rfl⟩ := encodes_iff.mp hframe
      refine ⟨_ :: msgs, ?_, List.Forall₂.cons ⟨hle, rfl⟩ hmsgs⟩
      rw [List.flatten_cons, hflat, List.flatMap_cons]

/-- The frame variable shows the first frames when it has received their messages. -/
theorem framesOf_agree {frames : List FwZerowireFrame} {msgs rest : List Message}
    (h : List.Forall₂ (fun frame msg => ∃ hle, msg = FwZerowireFrame.message frame hle) frames
      (msgs ++ rest)) (outFrame : FwZerowireFrame) :
    List.Forall₂ FwZerowireFrame.Agrees (framesOf outFrame msgs) (frames.take msgs.length) := by
  induction msgs generalizing frames outFrame with
  | nil => exact List.Forall₂.nil
  | cons msg msgs ih =>
      cases h with
      | cons hframe htail =>
          exact List.Forall₂.cons ((outFrame.receive_agrees_iff _ msg).mpr hframe) (ih htail _)

theorem framesOf_length (outFrame : FwZerowireFrame) (msgs : List Message) :
    (framesOf outFrame msgs).length = msgs.length := by
  induction msgs generalizing outFrame with
  | nil => rfl
  | cons msg msgs ih => rw [framesOf, List.length_cons, List.length_cons, ih]

/-- Bytes collected call by call. -/
theorem flatMap_eq_flatten {ε : Type} {f : ε → List UInt8} {g : ε → Option (List UInt8)}
    {events : List (Option ε)} (h : ∀ d, some d ∈ events → f d = (g d).getD []) :
    events.flatMap (fun e => e.elim [] f) = (events.filterMap fun e => e.bind g).flatten := by
  induction events with
  | nil => rfl
  | cons e rest ih =>
      rw [List.flatMap_cons, ih fun d hd => h d (List.mem_cons_of_mem _ hd), List.filterMap_cons]
      cases e with
      | none => rfl
      | some d =>
          change f d ++ _ = _
          rw [h d List.mem_cons_self, Option.bind_some]
          cases g d <;> rfl

section Bytes

variable {T : Target} {tx rx : FwSpsc T} {es : List LinkEvent}

theorem readBytes_eq (hmeets : ∀ d, some d ∈ RingLink.targetEvents es → RxMeets rx d) :
    readBytes es = (reads es).flatten := by
  refine flatMap_eq_flatten fun d hd => ?_
  have hd := hmeets d hd
  obtain ⟨op, result, seen⟩ := d
  cases op with
  | read length => rfl
  | inject byte =>
      cases result with
      | inject => rfl
      | read count dst => exact False.elim hd

theorem writtenBytes_eq (hwhole : WrittenWhole es) : writtenBytes es = (writes es).flatten := by
  refine flatMap_eq_flatten fun d hd => ?_
  obtain ⟨op, result, seen⟩ := d
  cases op with
  | extract => rfl
  | write data =>
      have hdone := hwhole _ hd
      cases result with
      | extract found outByte => cases hdone
      | write n =>
          change data.take n = data
          rw [of_decide_eq_true hdone, List.take_length]

end Bytes

/-- The frames that the receiver finds in what was read are the first ones of those that were
written, and all of them when nothing is in transit. -/
theorem fwZerowire_link_delivers {T : Target} {sender receiver : FwUart T}
    {tx rx tx' rx' : FwSpsc T} {r r' : RingBuffer UInt8} {es : List LinkEvent} {s : LinkState}
    (hsender : sender.Ready tx rx') (hreceiver : receiver.Ready tx' rx) (hr : Empty tx r)
    (hr' : Empty rx r')
    (run : Run (serialLink sender receiver tx rx).Step (RingLink.idle r r') es s)
    (hwhole : WrittenWhole es) (hnone : NoneLost rx es) {frames : List FwZerowireFrame}
    (hframes : List.Forall₂ Encodes frames (writes es)) (outFrame : FwZerowireFrame) :
    ∃ found rest, Receiver.receiveAll ⟨[], outFrame⟩ (reads es) = some (found, rest) ∧
      List.Forall₂ FwZerowireFrame.Agrees found (frames.take found.length) ∧
      (inTransit sender receiver tx rx s = [] →
        found.length = frames.length ∧ rest.unconsumed = []) := by
  obtain ⟨sent, arrived, h⟩ := serialLink_inOrder hsender hreceiver hr hr' run
  obtain ⟨msgs, hflat, hmsgs⟩ := exists_messages hframes
  have hstream : msgs.flatMap Message.wire =
      (reads es).flatten ++ inTransit sender receiver tx rx s := by
    rw [← hflat, ← writtenBytes_eq hwhole, written_eq h hnone, readBytes_eq h.targetMeets]
  have hdrain := Foundation.Framing.Judge.drain_append (J := scanJudge) (reads es).flatten
    (inTransit sender receiver tx rx s)
  rw [← hstream, drain_wires] at hdrain
  obtain ⟨hdelivered, hrest⟩ := Prod.mk.inj hdrain
  have hreceive : scanJudge.receive [] (reads es) = scanJudge.drain (reads es).flatten :=
    Foundation.Framing.Judge.receive_eq_drain rfl (reads es)
  refine ⟨_, _, Receiver.receiveAll_eq _ _, ?_, fun hempty => ?_⟩
  · dsimp only
    rw [hreceive, framesOf_length]
    rw [hdelivered] at hmsgs
    exact framesOf_agree hmsgs outFrame
  · have hall : scanJudge.drain (reads es).flatten = (msgs, []) := by
      rw [hempty, List.append_nil] at hstream
      rw [← hstream, drain_wires]
    dsimp only
    rw [hreceive, hall, framesOf_length]
    exact ⟨hmsgs.length_eq.symm, rfl⟩

/-- A queue of eight bytes. -/
def eightBytes : FwSpsc target32 := ⟨8, 7, ⟨3, rfl⟩, by decide, rfl⟩

def eightEmpty : RingBuffer UInt8 := ⟨List.replicate 8 0, 5, 5⟩

theorem eightEmpty_empty : Empty eightBytes eightEmpty :=
  ⟨⟨rfl, by decide, by decide, by decide⟩, by decide⟩

/-- A frame without a payload. -/
def bareFrame : FwZerowireFrame := ⟨1, 0x42, 0, List.replicate 256 0, List.length_replicate⟩

/-- The bytes of the frame. -/
def bareBytes : List UInt8 := [0xAA, 0x55, 1, 0x42, 0, 0, 0x26, 0x5A]

/-- The frame is written, carried byte by byte, and read. -/
def bareTurns : List (RingLink.LinkTurn TxCall RxCall) :=
  .source (.start (.write bareBytes)) :: List.replicate 5 (.source (.exec .producer)) ++
    bareBytes.flatMap (fun byte =>
      .source (.start .extract) :: List.replicate 4 (.source (.exec .consumer)) ++
        .target (.start (.inject byte)) :: List.replicate 4 (.target (.exec .producer))) ++
    .target (.start (.read 16)) :: List.replicate 5 (.target (.exec .consumer))

/-- A port with queues of eight bytes whose line leads back to itself. -/
def eightLoopback : FwUart target32 := fwUartInit 0 (some eightBytes) (some eightBytes)

theorem bareFrame_encodes : Encodes bareFrame bareBytes :=
  ⟨List.replicate 8 0, by decide +kernel, by decide +kernel⟩

theorem fwZerowire_link_delivers_sample :
    let link := serialLink eightLoopback eightLoopback eightBytes eightBytes
    let run := Run.play link.turn bareTurns (RingLink.idle eightEmpty eightEmpty)
    reads run.1 = [bareBytes] ∧
      ∃ found rest, Receiver.receiveAll ⟨[], bareFrame⟩ (reads run.1) = some (found, rest) ∧
        List.Forall₂ FwZerowireFrame.Agrees found ([bareFrame].take found.length) ∧
        (inTransit eightLoopback eightLoopback eightBytes eightBytes run.2 = [] →
          found.length = 1 ∧ rest.unconsumed = []) := by
  have hready : eightLoopback.Ready eightBytes eightBytes :=
    fwUartInit_ready 0 eightBytes eightBytes
  have hwrites : writes (Run.play (serialLink eightLoopback eightLoopback eightBytes
      eightBytes).turn bareTurns (RingLink.idle eightEmpty eightEmpty)).1 = [bareBytes] := by
    decide +kernel
  refine ⟨by decide +kernel, ?_⟩
  refine fwZerowire_link_delivers hready hready eightEmpty_empty eightEmpty_empty
    (Run.play_run (fun _ choice _ _ h => ⟨choice, h⟩) bareTurns _) ?_ ?_ ?_ bareFrame
  · unfold WrittenWhole
    decide +kernel
  · unfold NoneLost
    decide +kernel
  · rw [hwrites]
    exact List.Forall₂.cons bareFrame_encodes List.Forall₂.nil

end ZeroEmbedded.ZeroWire
