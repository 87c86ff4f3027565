import ZeroEmbedded.Protocol.ZeroWireStream

/-!
# Resynchronisation

What `fw_zerowire_stream_sync` skips never becomes a frame: the scan leaves an
offset only when the verdict on it is final.
-/

namespace ZeroEmbedded.ZeroWire

open Foundation.Framing

/-- The decoder accepts the bytes from offset `j` of the stream. -/
def StartsFrame (stream : List UInt8) (j : Nat) : Prop :=
  ∃ outFrame out, fwZerowireDecode (stream.drop j) outFrame = some (.ok, out)

theorem startsFrame_iff (stream : List UInt8) (j : Nat) :
    StartsFrame stream j ↔ ∃ msg : Message, msg.wire <+: stream.drop j := by
  constructor
  · rintro ⟨outFrame, out, hdecode⟩
    rw [fwZerowireDecode_eq] at hdecode
    cases hp : parse (stream.drop j) with
    | ok msg => exact ⟨msg, wire_prefix_of_parse hp⟩
    | error e =>
        rw [hp] at hdecode
        obtain rfl : e = .ok := (Prod.mk.inj (Option.some.inj hdecode)).1
        exact absurd hp (parse_ne_error_ok _)
  · rintro ⟨msg, hprefix⟩
    refine ⟨sampleFrame, sampleFrame.receive msg, ?_⟩
    rw [fwZerowireDecode_eq, parse_of_wire_prefix hprefix]

/-- The scan stops at a frame. -/
theorem startVerdict_of_wire_prefix {xs : List UInt8} {msg : Message} (h : msg.wire <+: xs) :
    startVerdict xs = .accept msg (8 + msg.data.length) := by
  have hp := parse_of_wire_prefix h
  obtain ⟨tail, rfl⟩ := h
  change parse (zerowireSof0 :: zerowireSof1 :: _) = _ at hp
  change startVerdict (zerowireSof0 :: zerowireSof1 :: _) = _
  rw [startVerdict, if_pos ⟨rfl, rfl⟩, hp]

/-- The scan has left every offset below `n`. -/
def Skips (stream : List UInt8) (n : Nat) : Prop :=
  ∀ j < n, startVerdict (stream.drop j) = .reject

/-- An offset that the scan left does not start a frame under any continuation. -/
theorem Skips.not_startsFrame {stream : List UInt8} {n j : Nat} (h : Skips stream n) (hj : j < n)
    (more : List UInt8) : ¬ StartsFrame (stream ++ more) j := by
  have hreject : scanJudge.verdict (stream.drop j) = .reject := h j hj
  have hin : j < stream.length := by
    by_contra hout
    exact scanJudge.ne_nil_of_reject hreject (List.drop_eq_nil_of_le (Nat.not_lt.mp hout))
  rw [startsFrame_iff]
  rintro ⟨msg, hprefix⟩
  rw [List.drop_append_of_le_length (Nat.le_of_lt hin)] at hprefix
  have haccept := startVerdict_of_wire_prefix hprefix
  rw [← scanJudge_verdict, scanJudge.reject_append hreject more] at haccept
  cases haccept

/-- The scan from offset `i` ends at a frame or where more input is needed, and leaves only
rejected offsets behind. -/
theorem syncLoop_skips {stream : List UInt8} (outFrame : FwZerowireFrame) {i : Nat}
    (hi : i ≤ stream.length) (hskip : Skips stream i) :
    (∃ k msg, syncLoop stream.length i (stream.drop i) outFrame =
        some (.ok, outFrame.receive msg, k + (8 + msg.data.length)) ∧
      startVerdict (stream.drop k) = .accept msg (8 + msg.data.length) ∧ Skips stream k) ∨
    ∃ n ≤ stream.length, syncLoop stream.length i (stream.drop i) outFrame =
        some (.errNotFound, outFrame, n) ∧ Skips stream n := by
  induction hbytes : stream.drop i generalizing i with
  | nil =>
      have hlen := congrArg List.length hbytes
      rw [List.length_drop, List.length_nil] at hlen
      refine Or.inr ⟨if stream.length > 0 then stream.length - 1 else 0, ?_, rfl, ?_⟩
      · split <;> omega
      · intro j hj
        exact hskip j (by split at hj <;> omega)
  | cons b0 tail ih =>
      have hlen := congrArg List.length hbytes
      rw [List.length_drop, List.length_cons] at hlen
      cases tail with
      | nil =>
          rw [List.length_nil] at hlen
          refine Or.inr ⟨if stream.length > 0 then stream.length - 1 else 0, ?_, rfl, ?_⟩
          · split <;> omega
          · intro j hj
            exact hskip j (by split at hj <;> omega)
      | cons b1 rest =>
          rw [syncLoop_cons]
          cases hv : startVerdict (b0 :: b1 :: rest) with
          | accept msg n =>
              obtain ⟨_, rfl⟩ := startVerdict_accept hv
              exact Or.inl ⟨i, msg, rfl, by rw [hbytes, hv], hskip⟩
          | more => exact Or.inr ⟨i, hi, rfl, hskip⟩
          | reject =>
              have hnext : stream.drop (i + 1) = b1 :: rest := by
                rw [← List.drop_drop, hbytes]
                rfl
              have hskip' : Skips stream (i + 1) := by
                intro j hj
                rcases Nat.lt_succ_iff_lt_or_eq.mp hj with hlt | rfl
                · exact hskip j hlt
                · rw [hbytes, hv]
              exact ih (by omega) hskip' hnext

/-- A call that finds a frame consumes up to its end, and skips no offset before it that
starts a frame under any continuation of the stream; neither does a call that finds none. -/
theorem fwZerowireStreamSync_keepsFrames (stream : List UInt8) (outFrame : FwZerowireFrame) :
    ∃ st out consumed, fwZerowireStreamSync stream outFrame = some (st, out, consumed) ∧
      consumed ≤ stream.length ∧
      (st = .ok → ∃ i msg, msg.wire <+: stream.drop i ∧ out = outFrame.receive msg ∧
        consumed = i + msg.wire.length ∧
        ∀ j < i, ∀ more, ¬ StartsFrame (stream ++ more) j) ∧
      (st ≠ .ok → ∀ j < consumed, ∀ more, ¬ StartsFrame (stream ++ more) j) := by
  have hscan := syncLoop_skips outFrame (Nat.zero_le stream.length) (fun j hj => by omega)
  rcases hscan with ⟨i, msg, hrun, hv, hskip⟩ | ⟨n, hle, hrun, hskip⟩
  · have hprefix := wire_prefix_of_parse (startVerdict_accept hv).1
    have hfits := hprefix.length_le
    rw [List.length_drop, Message.wire_length] at hfits
    refine ⟨_, _, _, hrun, by omega, fun _ => ⟨i, msg, hprefix, rfl, ?_, ?_⟩, fun hne => ?_⟩
    · rw [Message.wire_length]
    · exact fun j hj more => hskip.not_startsFrame hj more
    · exact absurd rfl hne
  · refine ⟨_, _, _, hrun, hle, nofun, fun _ j hj more => ?_⟩
    exact hskip.not_startsFrame hj more

end ZeroEmbedded.ZeroWire
