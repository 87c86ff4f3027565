import ZeroEmbedded.Foundation.Framing
import ZeroEmbedded.Protocol.ZeroWireCodec

/-!
# Receiving a stream

`fw_zerowire_stream_sync` looks for the next frame in a buffer. A receiver
appends each chunk to what it has not consumed and calls it as long as it finds
frames. The verdict of the decoder at one offset does not change under more
input, so the receiver is an instance of incremental framing.
-/

namespace ZeroEmbedded.ZeroWire

open Foundation.Framing

/-- The scan of `fw_zerowire_stream_sync` from offset `i` of a stream of `len` bytes:
status, `*out_frame` and `*out_consumed`. -/
def syncLoop (len : Nat) :
    Nat → List UInt8 → FwZerowireFrame → Option (FwStatus × FwZerowireFrame × Nat)
  | i, b0 :: b1 :: rest, outFrame =>
      if b0 = zerowireSof0 ∧ b1 = zerowireSof1 then do
        let (st, outFrame) ← fwZerowireDecode (b0 :: b1 :: rest) outFrame
        if st = .ok then
          return (.ok, outFrame, i + zerowireHeaderSize + outFrame.length.toNat + zerowireCrcSize)
        else if st = .errNotFound then return (.errNotFound, outFrame, i)
        else syncLoop len (i + 1) (b1 :: rest) outFrame
      else syncLoop len (i + 1) (b1 :: rest) outFrame
  | _, _, outFrame => some (.errNotFound, outFrame, if len > 0 then len - 1 else 0)

def fwZerowireStreamSync (stream : List UInt8) (outFrame : FwZerowireFrame) :
    Option (FwStatus × FwZerowireFrame × Nat) :=
  syncLoop stream.length 0 stream outFrame

/-- The unconsumed bytes of a receiver and its frame variable. -/
structure Receiver where
  unconsumed : List UInt8
  outFrame : FwZerowireFrame

/-- Call `fw_zerowire_stream_sync` and drop what it consumed, while it finds frames. The
first component lists the frames; `none` is a bad read or a loop that exceeds the fuel. -/
def Receiver.loop : Nat → Receiver → Option (List FwZerowireFrame × Receiver)
  | 0, _ => none
  | fuel + 1, r => do
      let (st, outFrame, consumed) ← fwZerowireStreamSync r.unconsumed r.outFrame
      let r : Receiver := ⟨r.unconsumed.drop consumed, outFrame⟩
      if st = .ok then
        let (frames, r) ← Receiver.loop fuel r
        return (outFrame :: frames, r)
      else return ([], r)

/-- Receive the chunks one by one. A loop that consumes a byte in each round ends within
the fuel. -/
def Receiver.receiveAll : Receiver → List (List UInt8) → Option (List FwZerowireFrame × Receiver)
  | r, [] => some ([], r)
  | r, chunk :: chunks => do
      let r : Receiver := ⟨r.unconsumed ++ chunk, r.outFrame⟩
      let (frames, r) ← r.loop (r.unconsumed.length + 1)
      let (more, r) ← r.receiveAll chunks
      return (frames ++ more, r)

section Verdict

/-- More input does not change an error other than an incomplete frame. -/
theorem parse_append_of_error {xs : List UInt8} {e : FwStatus} (h : parse xs = .error e)
    (he : e ≠ .errNotFound) (ys : List UInt8) : parse (xs ++ ys) = .error e := by
  by_cases hlen : xs.length < 8
  · rw [parse_of_short hlen] at h
    exact absurd (Except.error.inj h).symm he
  obtain ⟨b0, b1, b2, b3, b4, b5, rest, rfl, hrest⟩ := exists_header hlen
  have hrest' : ¬ (rest ++ ys).length < 2 := by
    rw [List.length_append]
    omega
  change parse (b0 :: b1 :: b2 :: b3 :: b4 :: b5 :: (rest ++ ys)) = _
  rw [parse, if_neg (Nat.not_lt.mpr hrest)] at h
  rw [parse, if_neg hrest']
  split at h
  · next hsof => rw [if_pos hsof, h]
  next hsof =>
    rw [if_neg hsof]
    rw [parseRest] at h ⊢
    split at h
    · next hbig => rw [dif_pos hbig, h]
    next hbig =>
      rw [dif_neg hbig]
      split at h
      · exact absurd (Except.error.inj h).symm he
      next hshort =>
        have hlong : ¬ (rest ++ ys).length < (ofLe16 b4 b5).toNat + 2 := by
          rw [List.length_append]
          omega
        have htake : (rest ++ ys).take (ofLe16 b4 b5).toNat = rest.take (ofLe16 b4 b5).toNat :=
          List.take_append_of_le_length (by omega)
        have hget : ∀ i, i < rest.length → (rest ++ ys).getD i 0 = rest.getD i 0 := fun i hi => by
          rw [List.getD_eq_getElem?_getD, List.getD_eq_getElem?_getD, List.getElem?_append_left hi]
        have hget0 := hget (ofLe16 b4 b5).toNat (by omega)
        have hget1 := hget ((ofLe16 b4 b5).toNat + 1) (by omega)
        simp only [if_neg hlong, htake, hget0, hget1]
        split at h
        · next hcrc => rw [if_pos hcrc, h]
        · cases h

theorem parse_append_of_ok {xs : List UInt8} {msg : Message} (h : parse xs = .ok msg)
    (ys : List UInt8) : parse (xs ++ ys) = .ok msg :=
  parse_of_wire_prefix ((wire_prefix_of_parse h).trans (List.prefix_append xs ys))

/-- What the scan decides at the start of a sequence. -/
def startVerdict : List UInt8 → Verdict Message
  | b0 :: b1 :: rest =>
      if b0 = zerowireSof0 ∧ b1 = zerowireSof1 then
        match parse (b0 :: b1 :: rest) with
        | .ok msg => .accept msg (8 + msg.data.length)
        | .error e => if e = .errNotFound then .more else .reject
      else .reject
  | _ => .more

theorem startVerdict_accept {xs : List UInt8} {msg : Message} {n : Nat}
    (h : startVerdict xs = .accept msg n) : parse xs = .ok msg ∧ n = 8 + msg.data.length := by
  match xs with
  | [] | [_] => cases h
  | b0 :: b1 :: rest =>
      rw [startVerdict] at h
      split at h
      · split at h
        · next hp =>
            cases h
            exact ⟨hp, rfl⟩
        · split at h <;> cases h
      · cases h

/-- The verdicts of the scan are final. -/
def scanJudge : Judge UInt8 Message where
  verdict := startVerdict
  verdict_nil := rfl
  reject_append := by
    intro xs h ys
    match xs with
    | [] | [_] => cases h
    | b0 :: b1 :: rest =>
        change startVerdict (b0 :: b1 :: (rest ++ ys)) = _
        rw [startVerdict] at h ⊢
        split at h
        · next hsof =>
            rw [if_pos hsof]
            split at h
            · cases h
            next e hp =>
              split at h
              · cases h
              next he =>
                have hp' := parse_append_of_error hp he ys
                rw [List.cons_append, List.cons_append] at hp'
                simp only [hp', if_neg he]
        · next hsof => rw [if_neg hsof]
  accept_append := by
    intro xs msg n h ys
    obtain ⟨hp, rfl⟩ := startVerdict_accept h
    match xs with
    | [] | [_] => cases h
    | b0 :: b1 :: rest =>
        change startVerdict (b0 :: b1 :: (rest ++ ys)) = _
        have hp' := parse_append_of_ok hp ys
        rw [List.cons_append, List.cons_append] at hp'
        rw [startVerdict] at h ⊢
        split at h
        · next hsof => simp only [if_pos hsof, hp']
        · cases h
  accept_pos := by
    intro xs msg n h
    obtain ⟨_, rfl⟩ := startVerdict_accept h
    omega
  accept_le := by
    intro xs msg n h
    obtain ⟨hp, rfl⟩ := startVerdict_accept h
    have hlen := (wire_prefix_of_parse hp).length_le
    rwa [Message.wire_length] at hlen

theorem scanJudge_verdict (xs : List UInt8) : scanJudge.verdict xs = startVerdict xs := rfl

end Verdict

section Receive

/-- The frames that the frame variable shows when it receives the messages in turn. -/
def framesOf (outFrame : FwZerowireFrame) : List Message → List FwZerowireFrame
  | [] => []
  | msg :: msgs => outFrame.receive msg :: framesOf (outFrame.receive msg) msgs

/-- The frame variable after the messages. -/
def lastFrame (outFrame : FwZerowireFrame) (msgs : List Message) : FwZerowireFrame :=
  msgs.foldl FwZerowireFrame.receive outFrame

theorem framesOf_append (outFrame : FwZerowireFrame) (xs ys : List Message) :
    framesOf outFrame (xs ++ ys) = framesOf outFrame xs ++ framesOf (lastFrame outFrame xs) ys := by
  induction xs generalizing outFrame with
  | nil => rfl
  | cons msg msgs ih =>
      simp only [List.cons_append, framesOf, ih, lastFrame, List.foldl_cons]

/-- One round of the scan follows the verdict at its offset. -/
theorem syncLoop_cons (len i : Nat) (b0 b1 : UInt8) (rest : List UInt8)
    (outFrame : FwZerowireFrame) :
    syncLoop len i (b0 :: b1 :: rest) outFrame =
      match startVerdict (b0 :: b1 :: rest) with
      | .accept msg n => some (.ok, outFrame.receive msg, i + n)
      | .more => some (.errNotFound, outFrame, i)
      | .reject => syncLoop len (i + 1) (b1 :: rest) outFrame := by
  rw [syncLoop, startVerdict]
  by_cases hsof : b0 = zerowireSof0 ∧ b1 = zerowireSof1
  · rw [if_pos hsof, if_pos hsof, fwZerowireDecode_eq]
    cases hp : parse (b0 :: b1 :: rest) with
    | ok msg =>
        have hword : (outFrame.receive msg).length.toNat = msg.data.length := msg.length_toNat
        simp only [Option.bind_eq_bind, Option.bind_some, if_true, hword]
        change some _ = some _
        rw [zerowireHeaderSize, zerowireCrcSize,
          show i + 6 + msg.data.length + 2 = i + (8 + msg.data.length) by omega]
    | error e =>
        have hne : e ≠ .ok := fun h => parse_ne_error_ok _ (h ▸ hp)
        simp only [Option.bind_eq_bind, Option.bind_some, if_neg hne]
        by_cases he : e = .errNotFound
        · rw [if_pos he, if_pos he]
          rfl
        · rw [if_neg he, if_neg he]
  · rw [if_neg hsof, if_neg hsof]

/-- What one call finds: no frame, or the first message that draining delivers. -/
theorem syncLoop_eq (len : Nat) {i : Nat} {bytes : List UInt8} (outFrame : FwZerowireFrame)
    (hlen : len = i + bytes.length) (hne : bytes ≠ [] ∨ i = 0) :
    (∃ c, syncLoop len i bytes outFrame = some (.errNotFound, outFrame, i + c) ∧
      scanJudge.drain bytes = ([], bytes.drop c)) ∨
    ∃ msg c, syncLoop len i bytes outFrame = some (.ok, outFrame.receive msg, i + c) ∧
      0 < c ∧ c ≤ bytes.length ∧
      scanJudge.drain bytes = (msg :: (scanJudge.drain (bytes.drop c)).1,
        (scanJudge.drain (bytes.drop c)).2) := by
  induction bytes generalizing i with
  | nil =>
      have hi : i = 0 := hne.resolve_left (fun h => h rfl)
      subst hi
      refine Or.inl ⟨0, ?_, Judge.drain_of_more rfl⟩
      rw [syncLoop.eq_def]
      simp [hlen]
  | cons b0 tail ih =>
      cases tail with
      | nil =>
          refine Or.inl ⟨0, ?_, Judge.drain_of_more rfl⟩
          rw [syncLoop.eq_def]
          simp [hlen]
      | cons b1 rest =>
          rw [syncLoop_cons]
          cases hv : startVerdict (b0 :: b1 :: rest) with
          | accept msg n =>
              have hjudge : scanJudge.verdict (b0 :: b1 :: rest) = .accept msg n := hv
              exact Or.inr ⟨msg, n, rfl, scanJudge.accept_pos hjudge, scanJudge.accept_le hjudge,
                Judge.drain_of_accept hjudge⟩
          | more => exact Or.inl ⟨0, rfl, Judge.drain_of_more (J := scanJudge) hv⟩
          | reject =>
              -- the scan goes on behind the first byte
              have hdrain : scanJudge.drain (b0 :: b1 :: rest) = scanJudge.drain (b1 :: rest) :=
                Judge.drain_of_reject (J := scanJudge) hv
              have hlen' : len = i + 1 + (b1 :: rest).length := by
                rw [hlen, List.length_cons]
                omega
              rcases ih hlen' (Or.inl (List.cons_ne_nil _ _)) with
                ⟨c, hrun, hd⟩ | ⟨msg, c, hrun, hpos, hle, hd⟩
              · refine Or.inl ⟨c + 1, ?_, by rw [hdrain, hd]; rfl⟩
                dsimp only
                rw [hrun, Nat.add_assoc, Nat.add_comm 1]
              · refine Or.inr ⟨msg, c + 1, ?_, by omega, by simpa using hle, by
                  rw [hdrain, hd]; rfl⟩
                dsimp only
                rw [hrun, Nat.add_assoc, Nat.add_comm 1]

/-- The loop of the receiver delivers what draining its bytes delivers. -/
theorem Receiver.loop_eq {fuel : Nat} {r : Receiver} (hfuel : r.unconsumed.length < fuel) :
    r.loop fuel = some (framesOf r.outFrame (scanJudge.drain r.unconsumed).1,
      ⟨(scanJudge.drain r.unconsumed).2,
        lastFrame r.outFrame (scanJudge.drain r.unconsumed).1⟩) := by
  induction fuel generalizing r with
  | zero => omega
  | succ fuel ih =>
      have hsync := syncLoop_eq r.unconsumed.length r.outFrame (Nat.zero_add _).symm (Or.inr rfl)
      rw [Receiver.loop, fwZerowireStreamSync]
      rcases hsync with ⟨c, hrun, hd⟩ | ⟨msg, c, hrun, hpos, hle, hd⟩
      · rw [hrun, hd, Nat.zero_add]
        rfl
      · have hnext := ih (r := ⟨r.unconsumed.drop c, r.outFrame.receive msg⟩) (by
          change (r.unconsumed.drop c).length < fuel
          rw [List.length_drop]
          omega)
        rw [hrun, hd, Nat.zero_add]
        simp only [Option.bind_eq_bind, Option.bind_some, if_true, hnext]
        rfl

/-- Receiving chunks is receiving them by the verdicts of the scan. -/
theorem Receiver.receiveAll_eq (r : Receiver) (chunks : List (List UInt8)) :
    r.receiveAll chunks = some (framesOf r.outFrame (scanJudge.receive r.unconsumed chunks).1,
      ⟨(scanJudge.receive r.unconsumed chunks).2,
        lastFrame r.outFrame (scanJudge.receive r.unconsumed chunks).1⟩) := by
  induction chunks generalizing r with
  | nil => rfl
  | cons chunk chunks ih =>
      rw [Receiver.receiveAll, Receiver.loop_eq (Nat.lt_succ_self _)]
      simp only [Option.bind_eq_bind, Option.bind_some, ih]
      rw [Judge.receive]
      simp only [framesOf_append, lastFrame, List.foldl_append]
      rfl

/-- A receiver delivers the same frames for every way of cutting a stream into chunks, and
keeps the same unconsumed bytes. -/
theorem receiveAll_flatten (outFrame : FwZerowireFrame) (chunks : List (List UInt8)) :
    ∃ frames r, Receiver.receiveAll ⟨[], outFrame⟩ chunks = some (frames, r) ∧
      Receiver.receiveAll ⟨[], outFrame⟩ [chunks.flatten] = some (frames, r) := by
  have hsame : scanJudge.receive [] chunks = scanJudge.receive [] [chunks.flatten] := by
    rw [Judge.receive_eq_drain rfl, Judge.receive_eq_drain rfl, List.flatten_singleton]
  refine ⟨_, _, Receiver.receiveAll_eq _ _, ?_⟩
  rw [Receiver.receiveAll_eq, hsame]

end Receive

end ZeroEmbedded.ZeroWire
