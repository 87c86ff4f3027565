import ZeroEmbedded.Protocol.Crc16

/-!
# Corrupted frames

The decoder sees every change within two neighbouring bytes of one field of an
encoded frame, except for the start bytes and the length, which it checks
before the checksum.
-/

namespace ZeroEmbedded.ZeroWire

open Nvs

/-- The offsets of sequence number and message id, of the payload, and of the checksum. -/
def fieldSpans (len : Nat) : List (Nat × Nat) :=
  [(2, 4), (zerowireHeaderSize, zerowireHeaderSize + len),
    (zerowireHeaderSize + len, zerowireHeaderSize + len + zerowireCrcSize)]

/-- `changed` differs from `bytes`, within two neighbouring bytes of one field. -/
structure BurstInField (len : Nat) (bytes changed : List UInt8) : Prop where
  length_eq : changed.length = bytes.length
  ne : changed ≠ bytes
  within : ∃ span ∈ fieldSpans len, ∃ a, ∀ j, changed[j]? ≠ bytes[j]? →
    span.1 ≤ j ∧ j < span.2 ∧ (j = a ∨ j = a + 1)

/-- With a valid header only the checksum decides. -/
theorem parse_of_crc_ne {src : List UInt8} {msg : Message}
    (hlen : src.length = msg.wire.length)
    (hheader : ∀ j, j < 2 ∨ j = 4 ∨ j = 5 → src[j]? = msg.wire[j]?)
    (hcrc : fwCrc16Ccitt (src.take (6 + msg.data.length)) ≠
      ofLe16 (src.getD (6 + msg.data.length) 0) (src.getD (7 + msg.data.length) 0)) :
    parse src = .error .errCorrupted := by
  have hle := msg.data_le
  rw [Message.wire_length] at hlen
  obtain ⟨b0, b1, b2, b3, b4, b5, rest, rfl, hrest⟩ := exists_header
    (by omega : ¬ src.length < 8)
  have h0 : b0 = zerowireSof0 := Option.some.inj (hheader 0 (Or.inl (by omega)))
  have h1 : b1 = zerowireSof1 := Option.some.inj (hheader 1 (Or.inl (by omega)))
  have h4 : b4 = (UInt16.ofNat msg.data.length).toUInt8 :=
    Option.some.inj (hheader 4 (Or.inr (Or.inl rfl)))
  have h5 : b5 = (UInt16.ofNat msg.data.length >>> 8).toUInt8 :=
    Option.some.inj (hheader 5 (Or.inr (Or.inr rfl)))
  have hword : (ofLe16 b4 b5).toNat = msg.data.length := by
    rw [h4, h5, ofLe16_bytes, msg.length_toNat]
  have hlen' : rest.length = msg.data.length + 2 := by
    simp only [List.length_cons] at hlen
    omega
  have hidx : 7 + msg.data.length = msg.data.length + 1 + 6 := by omega
  rw [parse, if_neg (Nat.not_lt.mpr hrest), if_neg (by simp [h0, h1]), hword, parseRest,
    dif_neg (by omega), if_neg (by omega), if_pos]
  rw [Nat.add_comm 6, hidx] at hcrc
  exact hcrc

/-- The bytes under the checksum are those before the trailer. -/
theorem wire_take (msg : Message) : msg.wire.take (6 + msg.data.length) = msg.covered :=
  List.take_left' msg.covered_length

section Changed

variable {msg : Message} {changed : List UInt8}

theorem getElem?_of_outside (hchange : BurstInField msg.data.length msg.wire changed) {j : Nat}
    (hj : j < 2 ∨ j = 4 ∨ j = 5) : changed[j]? = msg.wire[j]? := by
  obtain ⟨⟨lo, hi⟩, hmem, a, hwithin⟩ := hchange.within
  by_contra hne
  obtain ⟨hlo, hhi, _⟩ := hwithin j hne
  simp only [fieldSpans, zerowireHeaderSize, List.mem_cons, Prod.mk.injEq, List.not_mem_nil,
    or_false] at hmem
  dsimp only at hlo hhi
  omega

theorem length_of_burst (hchange : BurstInField msg.data.length msg.wire changed) :
    changed.length = 6 + msg.data.length + 2 := by
  rw [hchange.length_eq, Message.wire_length]
  omega

/-- The checksum of the changed bytes is not the one of the message. -/
theorem fwCrc16Ccitt_ne_of_burst (hchange : BurstInField msg.data.length msg.wire changed)
    (hne : changed.take (6 + msg.data.length) ≠ msg.covered) :
    fwCrc16Ccitt (changed.take (6 + msg.data.length)) ≠ fwCrc16Ccitt msg.covered := by
  have hlen := length_of_burst hchange
  obtain ⟨span, _, a, hwithin⟩ := hchange.within
  have htake : (changed.take (6 + msg.data.length)).length = msg.covered.length := by
    rw [List.length_take, msg.covered_length]
    omega
  have hburst : ∀ j, (changed.take (6 + msg.data.length))[j]? ≠ msg.covered[j]? →
      j = a ∨ j = a + 1 := by
    intro j hj
    rcases Nat.lt_or_ge j (6 + msg.data.length) with hlt | hge
    · rw [← wire_take msg, List.getElem?_take_of_lt hlt, List.getElem?_take_of_lt hlt] at hj
      exact (hwithin j hj).2.2
    · rw [← wire_take msg, List.getElem?_take_eq_none hge, List.getElem?_take_eq_none hge] at hj
      exact absurd rfl hj
  have hnil : ∀ bytes : List UInt8, bytes.length = 6 + msg.data.length → bytes ≠ [] := by
    intro bytes hbytes hzero
    rw [hzero, List.length_nil] at hbytes
    omega
  rw [fwCrc16Ccitt_eq_crc16Step (hnil _ (htake.trans msg.covered_length)),
    fwCrc16Ccitt_eq_crc16Step (hnil _ msg.covered_length)]
  exact crc16Step_ne 0xFFFF htake hburst hne

/-- A change before the trailer leaves the trailer as it is. -/
theorem trailer_of_burst (hchange : BurstInField msg.data.length msg.wire changed)
    (hne : changed.take (6 + msg.data.length) ≠ msg.covered) {j : Nat}
    (hj : 6 + msg.data.length ≤ j) : changed[j]? = msg.wire[j]? := by
  obtain ⟨⟨lo, hi⟩, hmem, a, hwithin⟩ := hchange.within
  simp only [fieldSpans, zerowireHeaderSize, zerowireCrcSize, List.mem_cons, Prod.mk.injEq,
    List.not_mem_nil, or_false] at hmem
  dsimp only at hwithin
  by_contra hlate
  have hin := hwithin j hlate
  apply hne
  rw [← wire_take msg]
  refine List.ext_getElem? fun k => ?_
  rcases Nat.lt_or_ge k (6 + msg.data.length) with hlt | hge
  · rw [List.getElem?_take_of_lt hlt, List.getElem?_take_of_lt hlt]
    by_contra hearly
    have hin' := hwithin k hearly
    omega
  · rw [List.getElem?_take_eq_none hge, List.getElem?_take_eq_none hge]

/-- The trailer does not hold the checksum of the changed bytes before it. -/
theorem crc_ne_of_burst (hchange : BurstInField msg.data.length msg.wire changed) :
    fwCrc16Ccitt (changed.take (6 + msg.data.length)) ≠
      ofLe16 (changed.getD (6 + msg.data.length) 0) (changed.getD (7 + msg.data.length) 0) := by
  have hlen := length_of_burst hchange
  have hseven : 7 + msg.data.length = 6 + msg.data.length + 1 := by omega
  rw [hseven]
  by_cases hcov : changed.take (6 + msg.data.length) = msg.covered
  · -- the change is in the trailer
    intro heq
    apply hchange.ne
    have hsplit := take_two changed (Nat.le_of_eq hlen.symm)
    rw [← hlen, List.take_length, hcov, ← le16_ofLe16, ← heq, hcov] at hsplit
    exact hsplit
  · have hget : ∀ k, changed.getD (6 + msg.data.length + k) 0 =
        (le16 (fwCrc16Ccitt msg.covered)).getD k 0 := by
      intro k
      rw [List.getD_eq_getElem?_getD, trailer_of_burst hchange hcov (Nat.le_add_right _ _),
        Message.wire, ← msg.covered_length, List.getElem?_append_right (Nat.le_add_right _ _),
        Nat.add_sub_cancel_left, List.getD_eq_getElem?_getD]
    have hword : ofLe16 (changed.getD (6 + msg.data.length) 0)
        (changed.getD (6 + msg.data.length + 1) 0) = fwCrc16Ccitt msg.covered := by
      have hzero := hget 0
      rw [Nat.add_zero] at hzero
      rw [hzero, hget 1]
      exact ofLe16_bytes _
    rw [hword]
    exact fwCrc16Ccitt_ne_of_burst hchange hcov

theorem parse_of_burst (hchange : BurstInField msg.data.length msg.wire changed) :
    parse changed = .error .errCorrupted :=
  parse_of_crc_ne hchange.length_eq (fun _ hj => getElem?_of_outside hchange hj)
    (crc_ne_of_burst hchange)

end Changed

/-- The decoder rejects an encoded frame with a burst in one of its fields, and leaves the
frame of the caller as it is. -/
theorem fwZerowireDecode_detects (frame : FwZerowireFrame) (outBuf : List UInt8)
    (hle : frame.length.toNat ≤ zerowireMaxPayload)
    (hbuf : 8 + frame.length.toNat ≤ outBuf.length) (changed : List UInt8)
    (hchange : BurstInField frame.length.toNat
      ((fwZerowireEncode frame outBuf).2.take (fwZerowireEncode frame outBuf).1) changed)
    (outFrame : FwZerowireFrame) :
    fwZerowireDecode changed outFrame = some (.errCorrupted, outFrame) := by
  rw [fwZerowireEncode_take frame outBuf hle hbuf, ← frame.message_data_length hle] at hchange
  rw [fwZerowireDecode_eq, parse_of_burst hchange]

/-- Both bytes of the payload of the sample frame change. -/
theorem fwZerowireDecode_detects_sample :
    fwZerowireDecode [0xAA, 0x55, 1, 2, 2, 0, 0xAB, 0x54, 0x35, 0xA1] sampleFrame =
      some (.errCorrupted, sampleFrame) := by
  have hfirst : ∀ j < 10, [0xAA, 0x55, 1, 2, 2, 0, 0xAB, 0x54, 0x35, 0xA1][j]? ≠
      ((fwZerowireEncode sampleFrame (List.replicate 10 0)).2.take
        (fwZerowireEncode sampleFrame (List.replicate 10 0)).1)[j]? →
      6 ≤ j ∧ j < 8 ∧ (j = 6 ∨ j = 6 + 1) := by
    decide +kernel
  refine fwZerowireDecode_detects sampleFrame (List.replicate 10 0) (by decide) (by decide) _
    ⟨by decide +kernel, by decide +kernel, (6, 8), by decide, 6, fun j hj => ?_⟩ sampleFrame
  rcases Nat.lt_or_ge j 10 with hlt | hge
  · exact hfirst j hlt hj
  · rw [List.getElem?_eq_none hge, List.getElem?_eq_none (Nat.le_trans (by decide +kernel) hge)]
      at hj
    exact absurd rfl hj

end ZeroEmbedded.ZeroWire
