import ZeroEmbedded.Protocol.Dispatcher

/-!
# A remote call from a stream

One call of `fw_cmd_process_stream` takes the next frame out of the received
bytes, dispatches it and encodes the answer of its handler.
-/

namespace ZeroEmbedded.Dispatcher

open Foundation ZeroWire

/-- The bytes are an encoding of the frame. -/
def Encodes (frame : FwZerowireFrame) (bytes : List UInt8) : Prop :=
  ∃ outBuf, (fwZerowireEncode frame outBuf).1 ≠ 0 ∧
    bytes = (fwZerowireEncode frame outBuf).2.take (fwZerowireEncode frame outBuf).1

/-- The frame carries the bytes of the handler back to the request. -/
structure Answers (req : FwZerowireFrame) (reply : HandlerReply) (frame : FwZerowireFrame) :
    Prop where
  seq : frame.seq = req.seq
  msgId : frame.msgId = req.msgId ||| 0x80
  length : frame.length.toNat = reply.respLen
  payload : frame.payload.take reply.respLen = reply.respPayload.take reply.respLen

variable {σ : Type} {h : CmdHandlers σ} {table : FwCmdTable} {rxStream : List UInt8}
  {reqFrame respFrame req frame : FwZerowireFrame} {reply : HandlerReply} {c : HandlerCall} {s : σ}

section Frames

theorem encodes_iff {bytes : List UInt8} : Encodes frame bytes ↔
    ∃ hle : frame.length.toNat ≤ zerowireMaxPayload, bytes = (frame.message hle).wire := by
  constructor
  · rintro ⟨outBuf, hwritten, rfl⟩
    by_cases hfits : frame.length.toNat ≤ zerowireMaxPayload ∧
        8 + frame.length.toNat ≤ outBuf.length
    · exact ⟨hfits.1, fwZerowireEncode_take frame outBuf hfits.1 hfits.2⟩
    · exact absurd (congrArg Prod.fst (fwZerowireEncode_refuses frame outBuf hfits)) hwritten
  · rintro ⟨hle, rfl⟩
    let outBuf : List UInt8 := List.replicate (8 + frame.length.toNat) 0
    have hbuf : 8 + frame.length.toNat ≤ outBuf.length := List.length_replicate.ge
    refine ⟨outBuf, ?_, (fwZerowireEncode_take frame outBuf hle hbuf).symm⟩
    rw [fwZerowireEncode_eq frame outBuf hle hbuf]
    exact Nat.ne_of_gt (Nat.add_pos_left (by decide) _)

/-- A frame that fits is encoded at the start of the buffer. -/
theorem fwZerowireEncode_writes {n : Nat} {tx : List UInt8} (hlength : frame.length.toNat = n)
    (hle : n ≤ zerowireMaxPayload) (hroom : 8 + n ≤ tx.length) :
    (fwZerowireEncode frame tx).1 = 8 + n ∧ (fwZerowireEncode frame tx).2.length = tx.length ∧
      Encodes frame ((fwZerowireEncode frame tx).2.take (8 + n)) := by
  subst hlength
  have hwritten : (fwZerowireEncode frame tx).1 = 8 + frame.length.toNat := by
    rw [fwZerowireEncode_eq frame tx hle hroom]
  refine ⟨hwritten, ?_, tx, ?_, ?_⟩
  · rw [fwZerowireEncode_eq frame tx hle hroom, List.length_append, Message.wire_length,
      frame.message_data_length, List.length_drop]
    omega
  · rw [hwritten]
    exact Nat.ne_of_gt (Nat.add_pos_left (by decide) _)
  · rw [hwritten]

theorem responseTo_answers (hle : reply.respLen ≤ zerowireMaxPayload) (resp : FwZerowireFrame) :
    Answers req reply (responseTo req reply resp) where
  seq := rfl
  msgId := rfl
  length := responseTo_length hle req resp
  payload := by
    have hdata : (reply.respPayload.take reply.respLen).length = reply.respLen := by
      rw [List.length_take, reply.respPayload_length, Nat.min_eq_left hle]
    have hlen := resp.payload_length
    change (copyTo resp.payload 0 (reply.respPayload.take reply.respLen)).take _ = _
    rw [copyTo, List.take_take, List.take_zero, List.nil_append, Nat.min_eq_left (by omega)]
    exact List.take_left' hdata

/-- The decoder gives an answer back that was encoded. -/
theorem Answers.decoded (h : Answers req reply frame) {bytes : List UInt8}
    (hbytes : Encodes frame bytes) (outFrame : FwZerowireFrame) :
    ∃ frame', fwZerowireDecode bytes outFrame = some (.ok, frame') ∧ Answers req reply frame' := by
  obtain ⟨hle, rfl⟩ := encodes_iff.mp hbytes
  have hparse : parse (frame.message hle).wire = .ok (frame.message hle) :=
    parse_of_wire_prefix List.prefix_rfl
  obtain ⟨hseq, hid, hlen, hdata⟩ := (outFrame.receive_agrees_iff frame _).mpr ⟨hle, rfl⟩
  refine ⟨outFrame.receive (frame.message hle), ?_, hseq.trans h.seq, hid.trans h.msgId, ?_, ?_⟩
  · rw [fwZerowireDecode_eq, hparse]
  · rw [hlen]
    exact h.length
  · rw [hlen, h.length] at hdata
    exact hdata.trans h.payload

end Frames

section Calls

/-- Without a response the transmit buffer stays as it is. -/
theorem encodeReply_of_silent (consumed : Nat) (txOutBuf : Option (List UInt8))
    (outTxLen : Option Nat) (st : FwStatus) (outResp : Option FwZerowireFrame) :
    encodeReply consumed txOutBuf outTxLen ⟨st, outResp, some false⟩ =
      ⟨st, consumed, txOutBuf, outTxLen⟩ := by
  by_cases hok : st = .ok
  · subst hok
    rfl
  · exact if_pos hok

/-- A call that finds a frame dispatches it. -/
theorem fwCmdProcessStream_of_frame {consumed : Nat}
    (hsync : fwZerowireStreamSync rxStream reqFrame = some (.ok, req, consumed))
    (hreq : req.length.toNat ≤ zerowireMaxPayload) (table : FwCmdTable)
    (respFrame : FwZerowireFrame) (txOutBuf : Option (List UInt8)) (outTxLen : Option Nat) :
    (table.callOf req = none ∧ ∃ st,
      fwCmdProcessStream table rxStream reqFrame respFrame txOutBuf outTxLen =
        .ret ⟨st, consumed, txOutBuf, outTxLen.map fun _ => 0⟩) ∨
    ∃ c, table.callOf req = some c ∧
      fwCmdProcessStream table rxStream reqFrame respFrame txOutBuf outTxLen =
        .call c fun reply => afterHandler req (some respFrame) (some false) reply >>= fun out =>
          .ret (encodeReply consumed txOutBuf (outTxLen.map fun _ => 0) out) := by
  have hdispatch : fwCmdProcessStream table rxStream reqFrame respFrame txOutBuf outTxLen =
      dispatchLoop req (some respFrame) (some false) table.entries >>= fun out =>
        .ret (encodeReply consumed txOutBuf (outTxLen.map fun _ => 0) out) := by
    simp only [fwCmdProcessStream, hsync]
    rfl
  rw [hdispatch]
  obtain ⟨hcall, st, hloop⟩ | ⟨c, hcall, hloop⟩ :=
    dispatchLoop_cases hreq (some respFrame) (some false) table.entries
  · refine Or.inl ⟨hcall, st, ?_⟩
    rw [hloop, Program.ret_bind, encodeReply_of_silent]
  · refine Or.inr ⟨c, hcall, ?_⟩
    rw [hloop, Program.call_bind]

/-- What a call returns once the handler has replied. -/
theorem encodeReply_of_reply (hle : reply.respLen ≤ zerowireMaxPayload) (consumed : Nat)
    (tx : List UInt8) (n : Nat) :
    (afterHandler req (some respFrame) (some false) reply >>= fun out =>
      Program.ret (encodeReply consumed (some tx) (some n) out)) =
        Program.ret (if reply.status = .ok ∧ 0 < reply.respLen then
          ⟨.ok, consumed, some (fwZerowireEncode (responseTo req reply respFrame) tx).2,
            some (fwZerowireEncode (responseTo req reply respFrame) tx).1⟩
        else ⟨reply.status, consumed, some tx, some n⟩) := by
  by_cases hreply : reply.status = .ok ∧ 0 < reply.respLen
  · have hresponds : Responds reply (some respFrame) :=
      ⟨hreply.1, hreply.2, Option.some_ne_none respFrame⟩
    rw [afterHandler_of_responds hresponds, if_pos hle, if_pos hreply]
    rfl
  · have hsilent : ¬ Responds reply (some respFrame) := fun hr => hreply ⟨hr.1, hr.2.1⟩
    rw [afterHandler_of_silent hsilent, if_neg hreply, Program.ret_bind, encodeReply_of_silent]

/-- A call dispatches nothing, or the frame that it finds. -/
theorem fwZerowireStreamSync_cases (rxStream : List UInt8) (reqFrame : FwZerowireFrame) :
    (∃ n, fwZerowireStreamSync rxStream reqFrame = some (.errNotFound, reqFrame, n)) ∨
    ∃ msg n, fwZerowireStreamSync rxStream reqFrame = some (.ok, reqFrame.receive msg, n) := by
  rcases syncLoop_eq rxStream.length reqFrame (Nat.zero_add _).symm (Or.inr rfl) with
    ⟨n, hrun, -⟩ | ⟨msg, n, hrun, -⟩
  · exact Or.inl ⟨_, hrun⟩
  · exact Or.inr ⟨msg, _, hrun⟩

theorem receive_length_le (frame : FwZerowireFrame) (msg : Message) :
    (frame.receive msg).length.toNat ≤ zerowireMaxPayload := by
  have hword : (frame.receive msg).length.toNat = msg.data.length := msg.length_toNat
  rw [hword]
  exact msg.data_le

/-- After its handler has replied, a call issues no other. -/
theorem afterHandler_issued (req respFrame : FwZerowireFrame) (reply : HandlerReply)
    (k : DispatchOut → ProcessOut) (s : σ) :
    (afterHandler req (some respFrame) (some false) reply >>= fun out =>
      Program.ret (k out)).issued h s = [] := by
  by_cases hresponds : Responds reply (some respFrame)
  · rw [afterHandler_of_responds hresponds]
    split <;> rfl
  · rw [afterHandler_of_silent hresponds]
    rfl

/-- A transmit buffer holds the complete reply. -/
def Replied (rxStream : List UInt8) (reqFrame : FwZerowireFrame) (reply : HandlerReply)
    (out : ProcessOut) : Prop :=
  ∃ req frame buf, fwZerowireStreamSync rxStream reqFrame = some (.ok, req, out.outConsumed) ∧
    Answers req reply frame ∧ out.txOutBuf = some buf ∧
    out.outTxLen = some (8 + reply.respLen) ∧ Encodes frame (buf.take (8 + reply.respLen))

/-- A call whose handler succeeds with 1 to `ZEROWIRE_MAX_PAYLOAD` bytes leaves the complete
reply or returns an error, if and only if the transmit buffer has room for that reply. -/
theorem fwCmdProcessStream_replies_iff (h : CmdHandlers σ) (table : FwCmdTable)
    (rxStream : List UInt8) (reqFrame respFrame : FwZerowireFrame) (tx : List UInt8) (n : Nat)
    (s : σ) (c : HandlerCall)
    (hcalled : c ∈ (fwCmdProcessStream table rxStream reqFrame respFrame (some tx)
      (some n)).issued h s)
    (hok : (h c s).1.status = .ok) (hpos : 0 < (h c s).1.respLen)
    (hle : (h c s).1.respLen ≤ zerowireMaxPayload) :
    ∃ out t, (fwCmdProcessStream table rxStream reqFrame respFrame (some tx) (some n)).run h s =
        (some out, t) ∧
      ((out.status = .ok ∧ Replied rxStream reqFrame (h c s).1 out ∨ out.status ≠ .ok) ↔
        8 + (h c s).1.respLen ≤ tx.length) := by
  rcases fwZerowireStreamSync_cases rxStream reqFrame with ⟨m, hsync⟩ | ⟨msg, m, hsync⟩
  · simp only [fwCmdProcessStream, hsync] at hcalled
    cases hcalled
  obtain ⟨-, st, hrun⟩ | ⟨c', -, hrun⟩ := fwCmdProcessStream_of_frame hsync
    (receive_length_le reqFrame msg) table respFrame (some tx) (some n)
  · rw [hrun] at hcalled
    cases hcalled
  rw [hrun, Program.issued, afterHandler_issued, List.mem_singleton] at hcalled
  subst hcalled
  rw [hrun, Program.run]
  simp only [Option.map_some, encodeReply_of_reply hle, if_pos (And.intro hok hpos)]
  refine ⟨_, _, rfl, ?_⟩
  have hlength := responseTo_length hle (reqFrame.receive msg) respFrame
  constructor
  · rintro (⟨-, req, frame, buf, -, -, -, hlen, -⟩ | herror)
    · by_contra hshort
      have hrefuses := fwZerowireEncode_refuses
        (responseTo (reqFrame.receive msg) (h c s).1 respFrame) tx
        (fun hfits => hshort (hlength ▸ hfits.2))
      dsimp only at hlen
      rw [hrefuses] at hlen
      have := Option.some.inj hlen
      omega
    · exact absurd rfl herror
  · intro hroom
    obtain ⟨hwritten, -, hencodes⟩ := fwZerowireEncode_writes hlength hle hroom
    exact Or.inl ⟨rfl, _, _, _, hsync, responseTo_answers hle respFrame, rfl,
      congrArg some hwritten, hencodes⟩

/-- The bytes of `sampleFrame`. -/
def sampleRequest : List UInt8 := (fwZerowireEncode sampleFrame (List.replicate 10 0)).2

/-- The call that they lead to. -/
def sampleCall : HandlerCall := ⟨16, 1, [0xAA, 0x55]⟩

theorem fwCmdProcessStream_replies_sample :
    ∃ out t, (fwCmdProcessStream sampleCommands sampleRequest sampleFrame sampleFrame
        (some (List.replicate 12 0)) (some 0)).run (reporting 4) () = (some out, t) ∧
      ((out.status = .ok ∧ Replied sampleRequest sampleFrame (reporting 4 sampleCall ()).1 out ∨
        out.status ≠ .ok) ↔
      8 + (reporting 4 sampleCall ()).1.respLen ≤ (List.replicate 12 0).length) :=
  fwCmdProcessStream_replies_iff (reporting 4) sampleCommands sampleRequest sampleFrame sampleFrame
    (List.replicate 12 0) 0 () sampleCall (by decide +kernel) rfl (by decide) (by decide)

/-- With a transmit buffer that is one byte too short, the request is executed and the call
reports success without a reply. -/
theorem fwCmdProcessStream_loses_reply :
    sampleCall ∈ (fwCmdProcessStream sampleCommands sampleRequest sampleFrame sampleFrame
        (some (List.replicate 11 0)) (some 0)).issued (reporting 4) () ∧
      ∃ out t, (fwCmdProcessStream sampleCommands sampleRequest sampleFrame sampleFrame
          (some (List.replicate 11 0)) (some 0)).run (reporting 4) () = (some out, t) ∧
        ¬ (out.status = .ok ∧ Replied sampleRequest sampleFrame (reporting 4 sampleCall ()).1 out ∨
          out.status ≠ .ok) := by
  refine ⟨by decide +kernel, ?_⟩
  have hstatus : ((fwCmdProcessStream sampleCommands sampleRequest sampleFrame sampleFrame
      (some (List.replicate 11 0)) (some 0)).run (reporting 4) ()).1.map
        (fun out => (out.status, out.outTxLen)) = some (.ok, some 0) := by
    decide +kernel
  obtain ⟨out, hout, hfields⟩ := Option.map_eq_some_iff.mp hstatus
  obtain ⟨hok, hlen⟩ := Prod.mk.inj hfields
  refine ⟨out, (), Prod.ext hout (Subsingleton.elim _ _), ?_⟩
  rintro (⟨-, req, frame, buf, -, -, -, hlen', -⟩ | herror)
  · rw [hlen] at hlen'
    cases hlen'
  · exact herror hok

end Calls

end ZeroEmbedded.Dispatcher
