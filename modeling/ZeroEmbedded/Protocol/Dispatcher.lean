import ZeroEmbedded.Foundation.DeviceProgram
import ZeroEmbedded.Protocol.ZeroWireResync

/-!
# The command dispatcher

`fw_cmd_dispatch` routes one request to the handler of the first table entry
with its message id and builds the response frame.

## Implementation notes

Handlers are code of the application: a dispatch is a program that calls them,
and a run fixes how they answer. Of `entries` and `entry_count` the model keeps
the list of the entries. The table and the request are given; what else may be
`FW_NULL` is an `Option`. A copy that reads or writes behind a buffer leaves the
program `stuck`.
-/

namespace ZeroEmbedded.Dispatcher

open Foundation ZeroWire

/-- `FW_NULL` as a handler. -/
def fwNull : Nat := 0

/-- `fw_cmd_entry_t`; the handler is an address. -/
structure FwCmdEntry where
  msgId : UInt8
  minPayloadLen : UInt16
  handler : Nat

/-- `fw_cmd_table_t`. -/
structure FwCmdTable where
  entries : List FwCmdEntry

/-- A call of a handler with the bytes of `req_payload`. -/
structure HandlerCall where
  handler : Nat
  seq : UInt8
  reqPayload : List UInt8
  deriving DecidableEq

/-- What a handler leaves: its status, the response buffer and `*out_resp_len`. -/
structure HandlerReply where
  status : FwStatus
  respPayload : List UInt8
  respPayload_length : respPayload.length = zerowireMaxPayload
  respLen : Nat

/-- A program that calls handlers. -/
abbrev Rpc := Program HandlerCall fun _ => HandlerReply

/-- The code of the handlers; `σ` is the state that they share. -/
abbrev CmdHandlers (σ : Type) := Handler HandlerCall (fun _ => HandlerReply) σ

/-- The status of `fw_cmd_dispatch`, `*out_resp` and `*out_has_response`. -/
structure DispatchOut where
  status : FwStatus
  outResp : Option FwZerowireFrame
  outHasResponse : Option Bool

/-- The response frame. The buffer of the handler and the payload of the frame have the same
size, so one bound serves both sides of the copy. -/
def buildResponse (req : FwZerowireFrame) (reply : HandlerReply) (outResp : FwZerowireFrame) :
    Option FwZerowireFrame :=
  (readSlice reply.respPayload 0 reply.respLen).map fun data =>
    outResp.store req.seq (req.msgId ||| 0x80) (UInt16.ofNat reply.respLen) data

/-- `fw_cmd_dispatch` after the handler has returned. -/
def afterHandler (req : FwZerowireFrame) (outResp : Option FwZerowireFrame)
    (outHasResponse : Option Bool) (reply : HandlerReply) : Rpc DispatchOut :=
  if reply.status ≠ .ok then pure ⟨reply.status, outResp, outHasResponse⟩
  else
    match outResp with
    | none => pure ⟨.ok, none, outHasResponse⟩
    | some resp =>
        if reply.respLen > 0 then
          match buildResponse req reply resp with
          | none => .stuck
          | some resp => pure ⟨.ok, some resp, outHasResponse.map fun _ => true⟩
        else pure ⟨.ok, some resp, outHasResponse⟩

/-- The search of `fw_cmd_dispatch` through the entries. -/
def dispatchLoop (req : FwZerowireFrame) (outResp : Option FwZerowireFrame)
    (outHasResponse : Option Bool) : List FwCmdEntry → Rpc DispatchOut
  | [] => pure ⟨.errNotFound, outResp, outHasResponse⟩
  | entry :: entries =>
      if entry.msgId = req.msgId then
        if req.length < entry.minPayloadLen then pure ⟨.errInvalidArg, outResp, outHasResponse⟩
        else if entry.handler = fwNull then pure ⟨.ok, outResp, outHasResponse⟩
        else
          match readSlice req.payload 0 req.length.toNat with
          | none => .stuck
          | some reqPayload =>
              .call ⟨entry.handler, req.seq, reqPayload⟩ (afterHandler req outResp outHasResponse)
      else dispatchLoop req outResp outHasResponse entries

def fwCmdDispatch (table : FwCmdTable) (req : FwZerowireFrame) (outResp : Option FwZerowireFrame)
    (outHasResponse : Option Bool) : Rpc DispatchOut :=
  dispatchLoop req outResp (outHasResponse.map fun _ => false) table.entries

/-- What `fw_cmd_process_stream` returns, `*out_consumed`, the transmit buffer and
`*out_tx_len`. -/
structure ProcessOut where
  status : FwStatus
  outConsumed : Nat
  txOutBuf : Option (List UInt8)
  outTxLen : Option Nat

/-- `fw_cmd_process_stream` after the dispatch has returned. -/
def encodeReply (outConsumed : Nat) (txOutBuf : Option (List UInt8)) (outTxLen : Option Nat)
    (out : DispatchOut) : ProcessOut :=
  if out.status ≠ .ok then ⟨out.status, outConsumed, txOutBuf, outTxLen⟩
  else
    match out.outHasResponse, out.outResp, txOutBuf, outTxLen with
    | some true, some respFrame, some buf, some _ =>
        let (n, buf) := fwZerowireEncode respFrame buf
        ⟨.ok, outConsumed, some buf, some n⟩
    | _, _, _, _ => ⟨.ok, outConsumed, txOutBuf, outTxLen⟩

/-- `fw_cmd_process_stream`; `reqFrame` and `respFrame` are its frame variables before it stores
into them. -/
def fwCmdProcessStream (table : FwCmdTable) (rxStream : List UInt8)
    (reqFrame respFrame : FwZerowireFrame) (txOutBuf : Option (List UInt8))
    (outTxLen : Option Nat) : Rpc ProcessOut :=
  let outTxLen := outTxLen.map fun _ => 0
  match fwZerowireStreamSync rxStream reqFrame with
  | none => .stuck
  | some (syncSt, reqFrame, outConsumed) =>
      if syncSt ≠ .ok then pure ⟨syncSt, outConsumed, txOutBuf, outTxLen⟩
      else do
        let out ← fwCmdDispatch table reqFrame (some respFrame) (some false)
        pure (encodeReply outConsumed txOutBuf outTxLen out)

/-- The call that a request leads to, if any: the first entry with its message id counts. -/
def FwCmdTable.callOf (table : FwCmdTable) (req : FwZerowireFrame) : Option HandlerCall :=
  match table.entries.find? fun entry => entry.msgId = req.msgId with
  | none => none
  | some entry =>
      if req.length < entry.minPayloadLen ∨ entry.handler = fwNull then none
      else some ⟨entry.handler, req.seq, req.payload.take req.length.toNat⟩

section Dispatch

variable {σ : Type} {req : FwZerowireFrame} {outResp : Option FwZerowireFrame}

/-- The search ends without a call, or with the call of the first entry. -/
theorem dispatchLoop_cases (hreq : req.length.toNat ≤ zerowireMaxPayload)
    (outResp : Option FwZerowireFrame) (outHasResponse : Option Bool) (entries : List FwCmdEntry) :
    (FwCmdTable.callOf ⟨entries⟩ req = none ∧
      ∃ st, dispatchLoop req outResp outHasResponse entries = .ret ⟨st, outResp, outHasResponse⟩) ∨
    ∃ c, FwCmdTable.callOf ⟨entries⟩ req = some c ∧
      dispatchLoop req outResp outHasResponse entries =
        .call c (afterHandler req outResp outHasResponse) := by
  induction entries with
  | nil => exact Or.inl ⟨rfl, _, rfl⟩
  | cons entry entries ih =>
      rw [dispatchLoop]
      by_cases hid : entry.msgId = req.msgId
      · have hfind : (entry :: entries).find? (fun entry => entry.msgId = req.msgId) = some entry :=
          List.find?_cons_of_pos (decide_eq_true hid)
        rw [if_pos hid, FwCmdTable.callOf, hfind]
        by_cases hshort : req.length < entry.minPayloadLen
        · exact Or.inl ⟨if_pos (Or.inl hshort), _, if_pos hshort⟩
        rw [if_neg hshort]
        by_cases hnull : entry.handler = fwNull
        · exact Or.inl ⟨if_pos (Or.inr hnull), _, if_pos hnull⟩
        rw [if_neg hnull]
        have hread : readSlice req.payload 0 req.length.toNat =
            some (req.payload.take req.length.toNat) := by
          rw [readSlice, req.payload_length, Nat.zero_add, if_pos hreq, List.drop_zero]
        refine Or.inr ⟨_, if_neg (not_or.mpr ⟨hshort, hnull⟩), ?_⟩
        rw [hread]
      · have hfind : (entry :: entries).find? (fun entry => entry.msgId = req.msgId) =
            entries.find? (fun entry => entry.msgId = req.msgId) :=
          List.find?_cons_of_neg (by simpa using hid)
        rw [if_neg hid, FwCmdTable.callOf, hfind]
        exact ih

/-- The response frame that a reply asks for. -/
def responseTo (req : FwZerowireFrame) (reply : HandlerReply) (resp : FwZerowireFrame) :
    FwZerowireFrame :=
  resp.store req.seq (req.msgId ||| 0x80) (UInt16.ofNat reply.respLen)
    (reply.respPayload.take reply.respLen)

/-- The handler asks for a response and there is a frame to build it in. -/
def Responds (reply : HandlerReply) (outResp : Option FwZerowireFrame) : Prop :=
  reply.status = .ok ∧ 0 < reply.respLen ∧ outResp ≠ none

/-- Without a response the frame of the caller stays as it is. -/
theorem afterHandler_of_silent {reply : HandlerReply} (h : ¬ Responds reply outResp)
    (req : FwZerowireFrame) (outHasResponse : Option Bool) :
    afterHandler req outResp outHasResponse reply =
      .ret ⟨reply.status, outResp, outHasResponse⟩ := by
  by_cases hok : reply.status = .ok
  · cases outResp with
    | none =>
        rw [afterHandler, if_neg (not_not.mpr hok), hok]
        rfl
    | some resp =>
        have hzero : ¬ reply.respLen > 0 := fun hpos => h ⟨hok, hpos, Option.some_ne_none resp⟩
        rw [afterHandler, if_neg (not_not.mpr hok), if_neg hzero, hok]
        rfl
  · rw [afterHandler.eq_def, if_pos hok]
    rfl

/-- The copies stay inside the buffers exactly when the reported length does. -/
theorem afterHandler_of_responds {reply : HandlerReply} {resp : FwZerowireFrame}
    (h : Responds reply (some resp)) (req : FwZerowireFrame) (outHasResponse : Option Bool) :
    afterHandler req (some resp) outHasResponse reply =
      if reply.respLen ≤ zerowireMaxPayload then
        .ret ⟨.ok, some (responseTo req reply resp), outHasResponse.map fun _ => true⟩
      else .stuck := by
  obtain ⟨hok, hpos, -⟩ := h
  have hbuild : buildResponse req reply resp =
      if reply.respLen ≤ zerowireMaxPayload then some (responseTo req reply resp) else none := by
    rw [buildResponse, readSlice, reply.respPayload_length, Nat.zero_add, List.drop_zero]
    split <;> rfl
  rw [afterHandler, if_neg (not_not.mpr hok), if_pos hpos, hbuild]
  by_cases hle : reply.respLen ≤ zerowireMaxPayload
  · rw [if_pos hle, if_pos hle]
    rfl
  · rw [if_neg hle, if_neg hle]

theorem responseTo_length {reply : HandlerReply} (hle : reply.respLen ≤ zerowireMaxPayload)
    (req resp : FwZerowireFrame) : (responseTo req reply resp).length.toNat = reply.respLen := by
  rw [zerowireMaxPayload] at hle
  change (UInt16.ofNat reply.respLen).toNat = _
  rw [UInt16.toNat_ofNat']
  exact Nat.mod_eq_of_lt (by omega)

/-- A dispatch stays inside its buffers and reports the length of the handler, if and only if a
handler that it calls with a response frame at hand, and that succeeds, reports at most
`ZEROWIRE_MAX_PAYLOAD` bytes. -/
theorem fwCmdDispatch_bounded_iff (h : CmdHandlers σ) (table : FwCmdTable) (req : FwZerowireFrame)
    (hreq : req.length.toNat ≤ zerowireMaxPayload) (outResp : Option FwZerowireFrame)
    (outHasResponse : Option Bool) (s : σ) :
    (∃ out t, (fwCmdDispatch table req outResp outHasResponse).run h s = (some out, t) ∧
      (out.outHasResponse = some true → ∃ c resp,
        (fwCmdDispatch table req outResp outHasResponse).issued h s = [c] ∧
        out.outResp = some resp ∧ resp.length.toNat = (h c s).1.respLen ∧
        (h c s).1.respLen ≤ zerowireMaxPayload)) ↔
      ∀ c, table.callOf req = some c → outResp ≠ none → (h c s).1.status = .ok →
        (h c s).1.respLen ≤ zerowireMaxPayload := by
  have hreset : outHasResponse.map (fun _ => false) ≠ some true := by
    cases outHasResponse <;> nofun
  rw [fwCmdDispatch]
  obtain ⟨hcall, st, hloop⟩ | ⟨c, hcall, hloop⟩ :=
    dispatchLoop_cases hreq outResp (outHasResponse.map fun _ => false) table.entries
  · rw [hloop]
    constructor
    · intro _ c hc
      rw [show table.callOf req = none from hcall] at hc
      cases hc
    · exact fun _ => ⟨_, s, rfl, fun hhas => absurd hhas hreset⟩
  rw [hloop, show table.callOf req = some c from hcall]
  by_cases hresponds : Responds (h c s).1 outResp
  · obtain ⟨hok, hpos, hresp⟩ := hresponds
    obtain ⟨resp, rfl⟩ := Option.ne_none_iff_exists'.mp hresp
    have hafter := afterHandler_of_responds ⟨hok, hpos, hresp⟩ req
      (outHasResponse.map fun _ => false)
    simp only [Program.run, Program.issued, hafter]
    by_cases hle : (h c s).1.respLen ≤ zerowireMaxPayload
    · rw [if_pos hle]
      constructor
      · intro _ c' hc' _ _
        cases hc'
        exact hle
      · exact fun _ => ⟨_, _, rfl, fun _ => ⟨c, _, rfl, rfl, responseTo_length hle req resp, hle⟩⟩
    · rw [if_neg hle]
      constructor
      · rintro ⟨out, t, hrun, -⟩
        cases hrun
      · exact fun hall => absurd (hall c rfl hresp hok) hle
  · have hafter := afterHandler_of_silent hresponds req (outHasResponse.map fun _ => false)
    simp only [Program.run, Program.issued, hafter]
    constructor
    · intro _ c' hc' hresp hok
      cases hc'
      have hzero : ¬ 0 < (h c s).1.respLen := fun hpos => hresponds ⟨hok, hpos, hresp⟩
      omega
    · exact fun _ => ⟨_, _, rfl, fun hhas => absurd hhas hreset⟩

/-- A handler for the message id 2. -/
def sampleCommands : FwCmdTable := ⟨[⟨2, 1, 16⟩]⟩

/-- Every handler succeeds and reports `n` bytes. -/
def reporting (n : Nat) : CmdHandlers Unit := fun _ s =>
  (⟨.ok, List.replicate zerowireMaxPayload 0x50, List.length_replicate, n⟩, s)

theorem fwCmdDispatch_bounded_sample :
    ∃ out t, (fwCmdDispatch sampleCommands sampleFrame (some sampleFrame) (some false)).run
        (reporting 256) () = (some out, t) ∧
      (out.outHasResponse = some true → ∃ c resp,
        (fwCmdDispatch sampleCommands sampleFrame (some sampleFrame) (some false)).issued
          (reporting 256) () = [c] ∧
        out.outResp = some resp ∧ resp.length.toNat = (reporting 256 c ()).1.respLen ∧
        (reporting 256 c ()).1.respLen ≤ zerowireMaxPayload) :=
  (fwCmdDispatch_bounded_iff (reporting 256) sampleCommands sampleFrame (by decide)
    (some sampleFrame) (some false) ()).mpr fun _ _ _ _ => Nat.le_refl 256

/-- A report of one byte more makes the copy leave both buffers. -/
theorem fwCmdDispatch_overrun :
    ¬ ∃ out t, (fwCmdDispatch sampleCommands sampleFrame (some sampleFrame) (some false)).run
      (reporting 257) () = (some out, t) := by
  rintro ⟨out, t, hrun⟩
  have hreq : sampleFrame.length.toNat ≤ zerowireMaxPayload := by decide
  obtain ⟨hnone, -⟩ | ⟨c, -, hloop⟩ :=
    dispatchLoop_cases hreq (some sampleFrame) (some false) sampleCommands.entries
  · cases hnone
  · have hresponds : Responds (reporting 257 c ()).1 (some sampleFrame) :=
      ⟨rfl, Nat.zero_lt_succ 256, nofun⟩
    have hafter := afterHandler_of_responds hresponds sampleFrame (some false)
    have hlong : ¬ (reporting 257 c ()).1.respLen ≤ zerowireMaxPayload := Nat.not_succ_le_self 256
    rw [if_neg hlong] at hafter
    change (dispatchLoop sampleFrame (some sampleFrame) (some false) _).run _ _ = _ at hrun
    rw [hloop, Program.run, hafter] at hrun
    cases hrun

end Dispatch

end ZeroEmbedded.Dispatcher
