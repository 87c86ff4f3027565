import ZeroEmbedded.Protocol.DispatcherStream

/-!
# Serving a stream of requests

A caller hands its unconsumed bytes to `fw_cmd_process_stream` again and again
and drops what each call consumes. Against it stands a server that sees the
requests themselves and lets the handlers answer one after the other.
-/

namespace ZeroEmbedded.Dispatcher

open Foundation ZeroWire

/-- Call `fw_cmd_process_stream` while bytes are left, at most once for each element of `locals`,
and drop what it consumed whatever it returned. `locals` gives the frame variables of each call
before it stores into them. The results are what the calls returned and the bytes left over. -/
def serve (table : FwCmdTable) : List (FwZerowireFrame × FwZerowireFrame) → List UInt8 →
    Option (List UInt8) → Option Nat → Rpc (List ProcessOut × List UInt8)
  | [], stream, _, _ => pure ([], stream)
  | (reqFrame, respFrame) :: locals, stream, txOutBuf, outTxLen =>
      if stream = [] then pure ([], stream)
      else do
        let out ← fwCmdProcessStream table stream reqFrame respFrame txOutBuf outTxLen
        let (outs, rest) ←
          serve table locals (stream.drop out.outConsumed) out.txOutBuf out.outTxLen
        pure (out :: outs, rest)

variable {σ : Type}

/-- The server: the handler of a request replies, if the request leads to a call. -/
def answer (h : CmdHandlers σ) (table : FwCmdTable) (req : FwZerowireFrame) (s : σ) :
    Option HandlerReply × σ :=
  match table.callOf req with
  | none => (none, s)
  | some c => (some (h c s).1, (h c s).2)

/-- The replies to the requests in turn. -/
def answers (h : CmdHandlers σ) (table : FwCmdTable) :
    List FwZerowireFrame → σ → List (FwZerowireFrame × Option HandlerReply) × σ
  | [], s => ([], s)
  | req :: reqs, s =>
      let (reply, s) := answer h table req s
      let (replies, s) := answers h table reqs s
      ((req, reply) :: replies, s)

/-- A call shows the reply: when it is not empty, the transmit buffer decodes to it. -/
def Shows (exchange : FwZerowireFrame × Option HandlerReply) (out : ProcessOut) : Prop :=
  ∀ reply, exchange.2 = some reply → reply.status = .ok → 0 < reply.respLen →
    ∃ buf n, out.status = .ok ∧ out.txOutBuf = some buf ∧ out.outTxLen = some n ∧
      ∀ outFrame, ∃ frame, fwZerowireDecode (buf.take n) outFrame = some (.ok, frame) ∧
        Answers exchange.1 reply frame

section Request

variable {h : CmdHandlers σ} {table : FwCmdTable} {req req' : FwZerowireFrame} {s : σ}

/-- The call depends on what a frame says only. -/
theorem callOf_congr (hagrees : req'.Agrees req) : table.callOf req' = table.callOf req := by
  obtain ⟨hseq, hid, hlen, hdata⟩ := hagrees
  rw [FwCmdTable.callOf, FwCmdTable.callOf, hdata, hseq, hid, hlen]

theorem Answers.congr {reply : HandlerReply} {frame : FwZerowireFrame}
    (hagrees : req'.Agrees req) (hframe : Answers req' reply frame) : Answers req reply frame where
  seq := hframe.seq.trans hagrees.1
  msgId := hframe.msgId.trans (by rw [hagrees.2.1])
  length := hframe.length
  payload := hframe.payload

/-- The scan finds a frame at the start of the stream and consumes its bytes. -/
theorem fwZerowireStreamSync_wire (msg : Message) (rest : List UInt8) (reqFrame : FwZerowireFrame) :
    fwZerowireStreamSync (msg.wire ++ rest) reqFrame =
      some (.ok, reqFrame.receive msg, msg.wire.length) := by
  have hverdict := startVerdict_of_wire_prefix (List.prefix_append msg.wire rest)
  rw [fwZerowireStreamSync, Message.wire_length]
  change startVerdict (zerowireSof0 :: zerowireSof1 :: _) = _ at hverdict
  change syncLoop _ 0 (zerowireSof0 :: zerowireSof1 :: _) reqFrame = _
  simp only [syncLoop_cons, hverdict, Nat.zero_add]

/-- One call takes the first request out of the stream, lets its handler answer and shows the
reply. -/
theorem fwCmdProcessStream_serves (table : FwCmdTable)
    (hbound : ∀ c s, (h c s).1.respLen ≤ zerowireMaxPayload)
    {bytes : List UInt8} (hbytes : Encodes req bytes) (rest : List UInt8)
    (reqFrame respFrame : FwZerowireFrame) {tx : List UInt8} (htx : 264 ≤ tx.length) (n : Nat)
    (s : σ) :
    ∃ out buf m,
      (fwCmdProcessStream table (bytes ++ rest) reqFrame respFrame (some tx) (some n)).run h s =
        (some out, (answer h table req s).2) ∧
      (fwCmdProcessStream table (bytes ++ rest) reqFrame respFrame (some tx) (some n)).issued h s =
        (table.callOf req).toList ∧
      out.outConsumed = bytes.length ∧ out.txOutBuf = some buf ∧ buf.length = tx.length ∧
      out.outTxLen = some m ∧ Shows (req, (answer h table req s).1) out := by
  obtain ⟨hle, rfl⟩ := encodes_iff.mp hbytes
  have hagrees := (reqFrame.receive_agrees_iff req _).mpr ⟨hle, rfl⟩
  obtain ⟨hnone, st, hrun⟩ | ⟨c, hsome, hrun⟩ := fwCmdProcessStream_of_frame
    (fwZerowireStreamSync_wire (req.message hle) rest reqFrame)
    (receive_length_le reqFrame (req.message hle)) table respFrame (some tx) (some n)
  · rw [callOf_congr hagrees] at hnone
    rw [hrun, answer, hnone]
    exact ⟨_, tx, 0, rfl, rfl, rfl, rfl, rfl, rfl, nofun⟩
  · rw [callOf_congr hagrees] at hsome
    rw [hrun, answer, hsome, Program.run, Program.issued, afterHandler_issued]
    simp only [Option.map_some, encodeReply_of_reply (hbound c s)]
    by_cases hreply : (h c s).1.status = .ok ∧ 0 < (h c s).1.respLen
    · have hlength := responseTo_length (hbound c s) (reqFrame.receive (req.message hle)) respFrame
      have hroom : 8 + (h c s).1.respLen ≤ tx.length :=
        Nat.le_trans (Nat.add_le_add_left (hbound c s) 8) htx
      obtain ⟨hwritten, hbuf, hencodes⟩ := fwZerowireEncode_writes hlength (hbound c s) hroom
      simp only [if_pos hreply]
      refine ⟨_, _, _, rfl, rfl, rfl, rfl, hbuf, rfl, ?_⟩
      intro reply hreply' _ _
      cases hreply'
      refine ⟨_, _, rfl, rfl, rfl, fun outFrame => ?_⟩
      rw [hwritten]
      obtain ⟨frame, hdecode, hanswers⟩ :=
        (responseTo_answers (hbound c s) respFrame).decoded hencodes outFrame
      exact ⟨frame, hdecode, hanswers.congr hagrees⟩
    · simp only [if_neg hreply]
      refine ⟨_, tx, 0, rfl, rfl, rfl, rfl, rfl, rfl, ?_⟩
      intro reply hreply' hok hpos
      cases hreply'
      exact absurd ⟨hok, hpos⟩ hreply

end Request

section Serve

theorem Encodes.ne_nil {req : FwZerowireFrame} {bytes : List UInt8} (h : Encodes req bytes) :
    bytes ≠ [] := by
  obtain ⟨hle, rfl⟩ := encodes_iff.mp h
  apply List.ne_nil_of_length_pos
  rw [Message.wire_length]
  exact Nat.add_pos_left (by decide) _

theorem serve_nil (table : FwCmdTable) (locals : List (FwZerowireFrame × FwZerowireFrame))
    (txOutBuf : Option (List UInt8)) (outTxLen : Option Nat) :
    serve table locals [] txOutBuf outTxLen = .ret ([], []) := by
  cases locals with
  | nil => rfl
  | cons frames locals => exact if_pos rfl

/-- Serving the encodings of requests calls exactly the handlers that the requests lead to, in
order and once each, consumes the whole stream, and shows every reply that is not empty. -/
theorem serve_answers (h : CmdHandlers σ) (table : FwCmdTable)
    (hbound : ∀ c s, (h c s).1.respLen ≤ zerowireMaxPayload) (reqs : List FwZerowireFrame)
    (chunks : List (List UInt8)) (hchunks : List.Forall₂ Encodes reqs chunks)
    (locals : List (FwZerowireFrame × FwZerowireFrame)) (hlocals : reqs.length ≤ locals.length)
    (tx : List UInt8) (htx : 264 ≤ tx.length) (n : Nat) (s : σ) :
    ∃ outs, (serve table locals chunks.flatten (some tx) (some n)).run h s =
        (some (outs, []), (answers h table reqs s).2) ∧
      (serve table locals chunks.flatten (some tx) (some n)).issued h s =
        reqs.filterMap table.callOf ∧
      List.Forall₂ Shows (answers h table reqs s).1 outs := by
  induction hchunks generalizing locals tx n s with
  | nil =>
      rw [List.flatten_nil, serve_nil]
      exact ⟨[], rfl, rfl, List.Forall₂.nil⟩
  | @cons req bytes reqs chunks hbytes hrest ih =>
      cases locals with
      | nil => cases hlocals
      | cons frames locals =>
          obtain ⟨out, buf, m, hrun, hissued, hconsumed, hbuf, hlength, hlen, hshows⟩ :=
            fwCmdProcessStream_serves table hbound hbytes chunks.flatten frames.1
              frames.2 htx n s
          obtain ⟨outs, hrun', hissued', hshows'⟩ := ih locals (Nat.le_of_succ_le_succ hlocals) buf
            (hlength ▸ htx) m (answer h table req s).2
          have hne : bytes ++ chunks.flatten ≠ [] :=
            List.append_ne_nil_of_left_ne_nil hbytes.ne_nil _
          have hdrop : (bytes ++ chunks.flatten).drop out.outConsumed = chunks.flatten := by
            rw [hconsumed]
            exact List.drop_left
          refine ⟨out :: outs, ?_, ?_, List.Forall₂.cons hshows hshows'⟩
          · rw [List.flatten_cons, serve, if_neg hne, Program.run_bind, hrun]
            dsimp only
            rw [hdrop, hbuf, hlen, Program.run_bind, hrun']
            rfl
          · rw [List.flatten_cons, serve, if_neg hne, Program.issued_bind, hrun, hissued]
            dsimp only
            rw [hdrop, hbuf, hlen, Program.issued_bind, hrun', hissued', List.filterMap_cons]
            cases table.callOf req with
            | none => exact List.append_nil _
            | some c => exact congrArg (c :: ·) (List.append_nil _)

theorem serve_answers_sample :
    ∃ outs, (serve sampleCommands (List.replicate 2 (sampleFrame, sampleFrame))
        [sampleRequest, sampleRequest].flatten (some (List.replicate 264 0)) (some 0)).run
          (reporting 4) () = (some (outs, []),
            (answers (reporting 4) sampleCommands [sampleFrame, sampleFrame] ()).2) ∧
      (serve sampleCommands (List.replicate 2 (sampleFrame, sampleFrame))
        [sampleRequest, sampleRequest].flatten (some (List.replicate 264 0)) (some 0)).issued
          (reporting 4) () = [sampleFrame, sampleFrame].filterMap sampleCommands.callOf ∧
      List.Forall₂ Shows
        (answers (reporting 4) sampleCommands [sampleFrame, sampleFrame] ()).1 outs := by
  have hencodes : Encodes sampleFrame sampleRequest :=
    ⟨List.replicate 10 0, by decide +kernel, by decide +kernel⟩
  have hbound : 4 ≤ zerowireMaxPayload := by decide
  exact serve_answers (reporting 4) sampleCommands (fun _ _ => hbound) [sampleFrame, sampleFrame]
    [sampleRequest, sampleRequest]
    (List.Forall₂.cons hencodes (List.Forall₂.cons hencodes List.Forall₂.nil))
    (List.replicate 2 (sampleFrame, sampleFrame)) (by decide) (List.replicate 264 0)
    List.length_replicate.ge 0 ()

end Serve

end ZeroEmbedded.Dispatcher
