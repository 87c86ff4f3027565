import ZeroEmbedded.Protocol.ZeroWire

/-!
# The language of the codec

A message is what a frame says. `wire` is its byte sequence, the encoder writes
it, and `parse` is what the decoder computes from its input. The decoder
accepts exactly the inputs that start with the bytes of a message.
-/

namespace ZeroEmbedded.ZeroWire

/-- Sequence number, message id and payload of a frame. -/
structure Message where
  seq : UInt8
  msgId : UInt8
  data : List UInt8
  data_le : data.length ≤ zerowireMaxPayload

namespace Message

/-- The bytes under the checksum. -/
def covered (msg : Message) : List UInt8 :=
  [zerowireSof0, zerowireSof1, msg.seq, msg.msgId] ++ le16 (UInt16.ofNat msg.data.length) ++
    msg.data

/-- The bytes of a message on the wire. -/
def wire (msg : Message) : List UInt8 := msg.covered ++ le16 (fwCrc16Ccitt msg.covered)

@[simp] theorem covered_length (msg : Message) : msg.covered.length = 6 + msg.data.length := by
  simp only [covered, List.length_append, List.length_cons, List.length_nil, le16_length]

@[simp] theorem wire_length (msg : Message) : msg.wire.length = 8 + msg.data.length := by
  simp only [wire, List.length_append, covered_length, le16_length]
  omega

theorem length_toNat (msg : Message) : (UInt16.ofNat msg.data.length).toNat = msg.data.length := by
  have h := msg.data_le
  rw [zerowireMaxPayload] at h
  rw [UInt16.toNat_ofNat']
  exact Nat.mod_eq_of_lt (by omega)

end Message

/-- The message that a frame carries when its length is legal. -/
def FwZerowireFrame.message (frame : FwZerowireFrame)
    (h : frame.length.toNat ≤ zerowireMaxPayload) : Message where
  seq := frame.seq
  msgId := frame.msgId
  data := frame.payload.take frame.length.toNat
  data_le := Nat.le_trans (List.length_take_le _ _) h

theorem FwZerowireFrame.message_data_length (frame : FwZerowireFrame)
    (h : frame.length.toNat ≤ zerowireMaxPayload) :
    (frame.message h).data.length = frame.length.toNat := by
  rw [message, List.length_take, frame.payload_length]
  omega

/-- The frame of the caller after it received a message. -/
def FwZerowireFrame.receive (frame : FwZerowireFrame) (msg : Message) : FwZerowireFrame :=
  frame.store msg.seq msg.msgId (UInt16.ofNat msg.data.length) msg.data

theorem le16_eq_masked (x : UInt16) :
    [(x &&& 0xFF).toUInt8, ((x >>> 8) &&& 0xFF).toUInt8] = le16 x := by
  have hmask : ∀ y : UInt16, (y &&& 0xFF).toUInt8 = y.toUInt8 := fun y => by
    apply UInt8.toNat_inj.mp
    rw [UInt16.toNat_toUInt8, UInt16.toNat_toUInt8, UInt16.toNat_and]
    have h := Nat.and_two_pow_sub_one_eq_mod y.toNat 8
    have hff : (0xFF : UInt16).toNat = 2 ^ 8 - 1 := rfl
    rw [hff, h]
    omega
  rw [hmask, hmask]
  rfl

/-- Two bytes joined by `|` and `<<` are the little-endian word. -/
theorem or_shift_eq_ofLe16 (a b : UInt8) : a.toUInt16 ||| (b.toUInt16 <<< 8) = ofLe16 a b := by
  apply UInt16.toNat_inj.mp
  have ha := a.toNat_lt
  have hb := b.toNat_lt
  have hshift : (b.toUInt16 <<< 8).toNat = b.toNat <<< 8 := by
    rw [UInt16.toNat_shiftLeft, UInt8.toNat_toUInt16]
    have h8 : (8 : UInt16).toNat % 16 = 8 := rfl
    rw [h8, Nat.shiftLeft_eq]
    exact Nat.mod_eq_of_lt (by omega)
  rw [UInt16.toNat_or, hshift, UInt8.toNat_toUInt16, Nat.or_comm,
    ← Nat.shiftLeft_add_eq_or_of_lt ha, Nat.shiftLeft_eq, ofLe16, UInt16.toNat_ofNat',
    Nat.mod_eq_of_lt (by omega)]
  omega

theorem getElem?_of_lt (src : List UInt8) {i : Nat} (h : i < src.length) :
    src[i]? = some (src.getD i 0) := by
  rw [List.getD_eq_getElem?_getD, List.getElem?_eq_getElem h, Option.getD_some]

/-- A frame is short when the bytes behind its header are. -/
theorem short_iff (b0 b1 b2 b3 b4 b5 : UInt8) (rest : List UInt8) (len : Nat) :
    (b0 :: b1 :: b2 :: b3 :: b4 :: b5 :: rest).length < len + 2 + 6 ↔ rest.length < len + 2 := by
  simp only [List.length_cons]
  omega

/-- The checks behind the header, for the length that it announces. -/
def parseRest (header : List UInt8) (seq msgId : UInt8) (len : Nat) (rest : List UInt8) :
    Except FwStatus Message :=
  if h : len > zerowireMaxPayload then .error .errBufferOverflow
  else if rest.length < len + 2 then .error .errNotFound
  else if fwCrc16Ccitt (header ++ rest.take len) ≠
      ofLe16 (rest.getD len 0) (rest.getD (len + 1) 0) then .error .errCorrupted
  else .ok ⟨seq, msgId, rest.take len, Nat.le_trans (List.length_take_le _ _) (Nat.not_lt.mp h)⟩

/-- What the decoder computes from its input: an error or a message. -/
def parse : List UInt8 → Except FwStatus Message
  | b0 :: b1 :: b2 :: b3 :: b4 :: b5 :: rest =>
      if rest.length < 2 then .error .errNotFound
      else if b0 ≠ zerowireSof0 ∨ b1 ≠ zerowireSof1 then .error .errCorrupted
      else parseRest [b0, b1, b2, b3, b4, b5] b2 b3 (ofLe16 b4 b5).toNat rest
  | _ => .error .errNotFound

theorem parse_of_short {src : List UInt8} (h : src.length < 8) :
    parse src = .error .errNotFound := by
  rw [parse.eq_def]
  split
  · next b0 b1 b2 b3 b4 b5 rest =>
      have hrest : rest.length < 2 := by
        simp only [List.length_cons] at h
        omega
      rw [if_pos hrest]
  · rfl

/-- An input of at least eight bytes has a header. -/
theorem exists_header {src : List UInt8} (h : ¬ src.length < 8) :
    ∃ b0 b1 b2 b3 b4 b5 rest, src = b0 :: b1 :: b2 :: b3 :: b4 :: b5 :: rest ∧
      2 ≤ rest.length := by
  match src with
  | b0 :: b1 :: b2 :: b3 :: b4 :: b5 :: rest =>
      refine ⟨b0, b1, b2, b3, b4, b5, rest, rfl, ?_⟩
      simp only [List.length_cons] at h
      omega
  | [] | [_] | [_, _] | [_, _, _] | [_, _, _, _] | [_, _, _, _, _] => simp at h

/-- The decoder never reads behind its input, and stores a message exactly when it parses one. -/
theorem fwZerowireDecode_eq (src : List UInt8) (outFrame : FwZerowireFrame) :
    fwZerowireDecode src outFrame = some (match parse src with
      | .error e => (e, outFrame)
      | .ok msg => (.ok, outFrame.receive msg)) := by
  rw [fwZerowireDecode]
  by_cases hlen : src.length < 8
  · rw [if_pos (show src.length < zerowireHeaderSize + zerowireCrcSize from hlen),
      parse_of_short hlen]
    rfl
  rw [if_neg (show ¬ src.length < zerowireHeaderSize + zerowireCrcSize from hlen)]
  obtain ⟨b0, b1, b2, b3, b4, b5, rest, rfl, hrest⟩ := exists_header hlen
  simp only [List.getElem?_cons_zero, List.getElem?_cons_succ, Option.bind_eq_bind,
    Option.bind_some, or_shift_eq_ofLe16, parse, if_neg (Nat.not_lt.mpr hrest)]
  by_cases hsof0 : b0 = zerowireSof0
  swap
  · rw [if_pos hsof0, if_pos (Or.inl hsof0)]
    rfl
  by_cases hsof1 : b1 = zerowireSof1
  swap
  · rw [if_neg (not_not.mpr hsof0), if_pos hsof1, if_pos (Or.inr hsof1)]
    rfl
  rw [if_neg (not_not.mpr hsof0), if_neg (not_not.mpr hsof1),
    if_neg (not_or.mpr ⟨not_not.mpr hsof0, not_not.mpr hsof1⟩)]
  generalize ofLe16 b4 b5 = word
  rw [parseRest]
  by_cases hbig : word.toNat > zerowireMaxPayload
  · rw [if_pos hbig, dif_pos hbig]
    rfl
  rw [if_neg hbig, dif_neg hbig]
  have htotal : zerowireHeaderSize + word.toNat + zerowireCrcSize = word.toNat + 2 + 6 := by
    rw [zerowireHeaderSize, zerowireCrcSize]
    omega
  rw [htotal]
  have hiff := short_iff b0 b1 b2 b3 b4 b5 rest word.toNat
  by_cases hshort : rest.length < word.toNat + 2
  · rw [if_pos (hiff.mpr hshort), if_pos hshort]
    rfl
  rw [if_neg (mt hiff.mp hshort), if_neg hshort]
  have hcovered : readSlice (b0 :: b1 :: b2 :: b3 :: b4 :: b5 :: rest) 0
      (zerowireHeaderSize + word.toNat) =
        some ([b0, b1, b2, b3, b4, b5] ++ rest.take word.toNat) := by
    rw [readSlice, if_pos (by simp only [zerowireHeaderSize, List.length_cons]; omega),
      zerowireHeaderSize, Nat.add_comm 6]
    rfl
  have hdata : readSlice (b0 :: b1 :: b2 :: b3 :: b4 :: b5 :: rest) 6 word.toNat =
      some (rest.take word.toNat) := by
    rw [readSlice, if_pos (by simp only [List.length_cons]; omega)]
    rfl
  have hc0 : (b0 :: b1 :: b2 :: b3 :: b4 :: b5 :: rest)[word.toNat + 2 + 6 - 2]? =
      some (rest.getD word.toNat 0) := getElem?_of_lt rest (by omega)
  have hc1 : (b0 :: b1 :: b2 :: b3 :: b4 :: b5 :: rest)[word.toNat + 2 + 6 - 1]? =
      some (rest.getD (word.toNat + 1) 0) := getElem?_of_lt rest (by omega)
  simp only [hcovered, hdata, hc0, hc1, Option.bind_some]
  by_cases hcrc : fwCrc16Ccitt ([b0, b1, b2, b3, b4, b5] ++ rest.take word.toNat) =
      ofLe16 (rest.getD word.toNat 0) (rest.getD (word.toNat + 1) 0)
  swap
  · rw [if_pos hcrc, if_pos hcrc]
    rfl
  rw [if_neg (not_not.mpr hcrc), if_neg (not_not.mpr hcrc)]
  have hlength : (rest.take word.toNat).length = word.toNat := by
    rw [List.length_take]
    omega
  have hword : UInt16.ofNat word.toNat = word := UInt16.ofNat_toNat
  simp only [FwZerowireFrame.receive, hlength, hword]
  by_cases hpos : word.toNat > 0
  · rw [if_pos hpos]
    rfl
  · have hzero : word.toNat = 0 := by omega
    rw [if_neg hpos, hzero, List.take_zero]
    rfl

theorem take_two (xs : List UInt8) {n : Nat} (h : n + 2 ≤ xs.length) :
    xs.take (n + 2) = xs.take n ++ [xs.getD n 0, xs.getD (n + 1) 0] := by
  have hn : n < xs.length := by omega
  have hn1 : n + 1 < xs.length := by omega
  rw [List.take_succ_eq_append_getElem hn1, List.take_succ_eq_append_getElem hn,
    List.getD_eq_getElem _ _ hn, List.getD_eq_getElem _ _ hn1, List.append_assoc]
  rfl

/-- The input of a successful parse starts with the bytes of the message. -/
theorem wire_prefix_of_parse {src : List UInt8} {msg : Message} (h : parse src = .ok msg) :
    msg.wire <+: src := by
  by_cases hlen : src.length < 8
  · rw [parse_of_short hlen] at h
    cases h
  obtain ⟨b0, b1, b2, b3, b4, b5, rest, rfl, hrest⟩ := exists_header hlen
  rw [parse, if_neg (Nat.not_lt.mpr hrest)] at h
  split at h
  · cases h
  next hsof =>
    obtain ⟨hsof0, hsof1⟩ := not_or.mp hsof
    rw [parseRest] at h
    split at h
    · cases h
    split at h
    · cases h
    next hshort =>
      split at h
      · cases h
      next hcrc =>
        cases h
        have hlength : (rest.take (ofLe16 b4 b5).toNat).length = (ofLe16 b4 b5).toNat := by
          rw [List.length_take]
          omega
        have hcovered : Message.covered ⟨b2, b3, rest.take (ofLe16 b4 b5).toNat, by
            rw [hlength]; omega⟩ =
              [b0, b1, b2, b3, b4, b5] ++ rest.take (ofLe16 b4 b5).toNat := by
          simp only [Message.covered, hlength, UInt16.ofNat_toNat, le16_ofLe16,
            not_not.mp hsof0, not_not.mp hsof1]
          rfl
        rw [Message.wire, hcovered, not_not.mp hcrc, le16_ofLe16, List.append_assoc,
          ← take_two rest (by omega)]
        exact (List.prefix_append_right_inj [b0, b1, b2, b3, b4, b5]).mpr (List.take_prefix _ _)

/-- An input that starts with the bytes of a message parses to it. -/
theorem parse_of_wire_prefix {src : List UInt8} {msg : Message} (h : msg.wire <+: src) :
    parse src = .ok msg := by
  obtain ⟨tail, rfl⟩ := h
  have hle := msg.data_le
  have hword : (ofLe16 (UInt16.ofNat msg.data.length).toUInt8
      (UInt16.ofNat msg.data.length >>> 8).toUInt8).toNat = msg.data.length := by
    rw [ofLe16_bytes, msg.length_toNat]
  generalize hcrc : fwCrc16Ccitt msg.covered = crc
  have hsrc : msg.wire ++ tail = zerowireSof0 :: zerowireSof1 :: msg.seq :: msg.msgId ::
      (UInt16.ofNat msg.data.length).toUInt8 :: (UInt16.ofNat msg.data.length >>> 8).toUInt8 ::
        (msg.data ++ (crc.toUInt8 :: (crc >>> 8).toUInt8 :: tail)) := by
    rw [Message.wire, hcrc, Message.covered]
    simp [le16]
  have htake : (msg.data ++ (crc.toUInt8 :: (crc >>> 8).toUInt8 :: tail)).take msg.data.length =
      msg.data := List.take_left' rfl
  have hget0 : (msg.data ++ (crc.toUInt8 :: (crc >>> 8).toUInt8 :: tail)).getD msg.data.length 0 =
      crc.toUInt8 := by simp [List.getD_eq_getElem?_getD]
  have hget1 : (msg.data ++ (crc.toUInt8 :: (crc >>> 8).toUInt8 :: tail)).getD
      (msg.data.length + 1) 0 = (crc >>> 8).toUInt8 := by
    simp [List.getD_eq_getElem?_getD]
  have hcovered : [zerowireSof0, zerowireSof1, msg.seq, msg.msgId,
      (UInt16.ofNat msg.data.length).toUInt8, (UInt16.ofNat msg.data.length >>> 8).toUInt8] ++
        msg.data = msg.covered := rfl
  have hlong : ¬ (msg.data ++ (crc.toUInt8 :: (crc >>> 8).toUInt8 :: tail)).length <
      msg.data.length + 2 := by
    simp only [List.length_append, List.length_cons]
    omega
  have hlong2 : ¬ (msg.data ++ (crc.toUInt8 :: (crc >>> 8).toUInt8 :: tail)).length < 2 := by
    omega
  rw [hsrc, parse, if_neg hlong2, if_neg (by simp), hword, parseRest, dif_neg (Nat.not_lt.mpr hle),
    if_neg hlong]
  simp only [htake, hget0, hget1, hcovered, ofLe16_bytes, hcrc, ne_eq, not_true_eq_false, if_false]

/-- A refused input never reports success. -/
theorem parse_ne_error_ok (src : List UInt8) : parse src ≠ .error .ok := by
  by_cases hlen : src.length < 8
  · rw [parse_of_short hlen]
    simp
  obtain ⟨b0, b1, b2, b3, b4, b5, rest, rfl, hrest⟩ := exists_header hlen
  rw [parse, if_neg (Nat.not_lt.mpr hrest), parseRest]
  split_ifs <;> simp

/-- Parsing accepts exactly the bytes of messages. -/
theorem parse_eq_ok_iff (src : List UInt8) (msg : Message) :
    parse src = .ok msg ↔ msg.wire <+: src :=
  ⟨wire_prefix_of_parse, parse_of_wire_prefix⟩

theorem set_two (xs ys : List UInt8) (y0 y1 a b : UInt8) :
    ((xs ++ y0 :: y1 :: ys).set xs.length a).set (xs.length + 1) b = xs ++ a :: b :: ys := by
  rw [List.set_append_right _ _ (Nat.le_refl _), Nat.sub_self, List.set_cons_zero,
    List.set_append_right _ _ (by omega), Nat.add_sub_cancel_left]
  rfl

/-- The encoder refuses a frame that is too long for the format or for the buffer. -/
theorem fwZerowireEncode_refuses (frame : FwZerowireFrame) (outBuf : List UInt8)
    (h : ¬ (frame.length.toNat ≤ zerowireMaxPayload ∧ 8 + frame.length.toNat ≤ outBuf.length)) :
    fwZerowireEncode frame outBuf = (0, outBuf) := by
  rw [fwZerowireEncode]
  by_cases hbig : frame.length.toNat > zerowireMaxPayload
  · rw [if_pos hbig]
  · have hshort : outBuf.length < zerowireHeaderSize + frame.length.toNat + zerowireCrcSize := by
      rw [zerowireHeaderSize, zerowireCrcSize]
      omega
    rw [if_neg hbig, if_pos hshort]

/-- Otherwise it writes the bytes of the message to the start of the buffer. -/
theorem fwZerowireEncode_eq (frame : FwZerowireFrame) (outBuf : List UInt8)
    (h : frame.length.toNat ≤ zerowireMaxPayload) (hbuf : 8 + frame.length.toNat ≤ outBuf.length) :
    fwZerowireEncode frame outBuf =
      (8 + frame.length.toNat, (frame.message h).wire ++ outBuf.drop (8 + frame.length.toNat)) := by
  obtain ⟨b0, b1, b2, b3, b4, b5, rest, rfl, _⟩ :=
    exists_header (by omega : ¬ outBuf.length < 8)
  have hdatalen := frame.message_data_length h
  have hcovered : (frame.message h).covered = zerowireSof0 :: zerowireSof1 :: frame.seq ::
      frame.msgId :: (frame.length &&& 0xFF).toUInt8 :: ((frame.length >>> 8) &&& 0xFF).toUInt8 ::
        frame.payload.take frame.length.toNat := by
    have hmask := le16_eq_masked frame.length
    rw [Message.covered, hdatalen, UInt16.ofNat_toNat, ← hmask]
    rfl
  generalize hcov : (frame.message h).covered = covered at hcovered
  have hcovlen : covered.length = 6 + frame.length.toNat := by
    rw [← hcov, Message.covered_length, hdatalen]
  have hrest : frame.length.toNat + 2 ≤ rest.length := by
    simp only [List.length_cons] at hbuf
    omega
  obtain ⟨y0, y1, tail, htail⟩ : ∃ y0 y1 tail, rest.drop frame.length.toNat = y0 :: y1 :: tail := by
    have hlen : (rest.drop frame.length.toNat).length = rest.length - frame.length.toNat :=
      List.length_drop
    match hd : rest.drop frame.length.toNat with
    | y0 :: y1 :: tail => exact ⟨y0, y1, tail, rfl⟩
    | [] | [_] =>
        rw [hd] at hlen
        simp only [List.length_nil, List.length_cons] at hlen
        omega
  have hcopy : (if frame.length.toNat > 0 then
      copyTo (zerowireSof0 :: zerowireSof1 :: frame.seq :: frame.msgId ::
        (frame.length &&& 0xFF).toUInt8 :: ((frame.length >>> 8) &&& 0xFF).toUInt8 :: rest) 6
          (frame.payload.take frame.length.toNat)
      else zerowireSof0 :: zerowireSof1 :: frame.seq :: frame.msgId ::
        (frame.length &&& 0xFF).toUInt8 :: ((frame.length >>> 8) &&& 0xFF).toUInt8 :: rest) =
        covered ++ y0 :: y1 :: tail := by
    rw [hcovered, ← htail]
    have hpay : (frame.payload.take frame.length.toNat).length = frame.length.toNat := hdatalen
    split
    · rw [copyTo, hpay, List.take_of_length_le]
      · rw [Nat.add_comm 6]
        rfl
      · simp only [List.length_append, List.length_take, List.length_drop, List.length_cons, hpay]
        omega
    next hzero =>
      have h0 : frame.length.toNat = 0 := by omega
      rw [h0]
      rfl
  have hdrop : (b0 :: b1 :: b2 :: b3 :: b4 :: b5 :: rest).drop (8 + frame.length.toNat) = tail := by
    have h2 : rest.drop (frame.length.toNat + 2) = tail := by
      rw [← List.drop_drop, htail]
      rfl
    rw [show 8 + frame.length.toNat = frame.length.toNat + 2 + 6 by omega]
    exact h2
  have htotal : zerowireHeaderSize + frame.length.toNat + zerowireCrcSize =
      8 + frame.length.toNat := by
    rw [zerowireHeaderSize, zerowireCrcSize]
    omega
  rw [fwZerowireEncode, if_neg (Nat.not_lt.mpr h), htotal, if_neg (Nat.not_lt.mpr hbuf)]
  simp only [List.set_cons_zero, List.set_cons_succ, hcopy]
  rw [show zerowireHeaderSize + frame.length.toNat = covered.length from hcovlen.symm,
    List.take_left' rfl, show 8 + frame.length.toNat - 2 = covered.length by omega,
    show 8 + frame.length.toNat - 1 = covered.length + 1 by omega, set_two, hdrop,
    Message.wire, hcov, ← le16_eq_masked (fwCrc16Ccitt covered), List.append_assoc]
  rfl

/-- The bytes that the encoder writes for a frame. -/
theorem fwZerowireEncode_take (frame : FwZerowireFrame) (outBuf : List UInt8)
    (h : frame.length.toNat ≤ zerowireMaxPayload) (hbuf : 8 + frame.length.toNat ≤ outBuf.length) :
    (fwZerowireEncode frame outBuf).2.take (fwZerowireEncode frame outBuf).1 =
      (frame.message h).wire := by
  rw [fwZerowireEncode_eq frame outBuf h hbuf]
  exact List.take_left' (by rw [Message.wire_length, frame.message_data_length])

/-- Two frames agree in sequence number, message id, length and the payload of that length. -/
def FwZerowireFrame.Agrees (frame other : FwZerowireFrame) : Prop :=
  frame.seq = other.seq ∧ frame.msgId = other.msgId ∧ frame.length = other.length ∧
    frame.payload.take frame.length.toNat = other.payload.take other.length.toNat

theorem FwZerowireFrame.receive_payload (frame : FwZerowireFrame) (msg : Message) :
    (frame.receive msg).payload.take msg.data.length = msg.data := by
  have hle := msg.data_le
  have hlen := frame.payload_length
  change (copyTo frame.payload 0 msg.data).take _ = _
  rw [copyTo, List.take_take, List.take_zero, List.nil_append, Nat.min_eq_left (by omega)]
  exact List.take_left' rfl

/-- A received frame agrees with a legal frame exactly when it received its message. -/
theorem FwZerowireFrame.receive_agrees_iff (outFrame frame : FwZerowireFrame) (msg : Message) :
    (outFrame.receive msg).Agrees frame ↔
      ∃ h : frame.length.toNat ≤ zerowireMaxPayload, msg = frame.message h := by
  have hword : ((outFrame.receive msg).length).toNat = msg.data.length := msg.length_toNat
  have hpay := outFrame.receive_payload msg
  constructor
  · rintro ⟨hseq, hid, hlen, hdata⟩
    have hle : frame.length.toNat ≤ zerowireMaxPayload := by
      rw [← hlen, hword]
      exact msg.data_le
    refine ⟨hle, ?_⟩
    rw [hword, hpay] at hdata
    obtain ⟨seq, msgId, data, data_le⟩ := msg
    change seq = frame.seq at hseq
    change msgId = frame.msgId at hid
    change data = _ at hdata
    subst hseq hid hdata
    rfl
  · rintro ⟨hle, rfl⟩
    refine ⟨rfl, rfl, ?_, ?_⟩
    · change UInt16.ofNat _ = frame.length
      rw [frame.message_data_length, UInt16.ofNat_toNat]
    · rw [hword, hpay]
      rfl

/-- The decoder stays inside its input, and accepts a frame exactly when the input starts
with the bytes that the encoder writes for it. -/
theorem fwZerowireDecode_ok_iff (src outBuf : List UInt8) (outFrame frame : FwZerowireFrame)
    (hbuf : 8 + frame.length.toNat ≤ outBuf.length) :
    (∃ st out, fwZerowireDecode src outFrame = some (st, out) ∧
      ((st = .ok ∧ out.Agrees frame) ↔ frame.length.toNat ≤ zerowireMaxPayload ∧
        (fwZerowireEncode frame outBuf).2.take (fwZerowireEncode frame outBuf).1 <+: src)) ∧
    (frame.length.toNat ≤ zerowireMaxPayload →
      (fwZerowireEncode frame outBuf).1 = 8 + frame.length.toNat ∧
        ∀ trailing, ∃ out, fwZerowireDecode
          ((fwZerowireEncode frame outBuf).2.take (fwZerowireEncode frame outBuf).1 ++ trailing)
            outFrame = some (.ok, out) ∧ out.Agrees frame) := by
  constructor
  · rw [fwZerowireDecode_eq]
    cases hparse : parse src with
    | error e =>
        refine ⟨e, outFrame, rfl, ?_⟩
        constructor
        · rintro ⟨rfl, _⟩
          exact absurd hparse (parse_ne_error_ok src)
        · rintro ⟨h, hprefix⟩
          rw [fwZerowireEncode_take frame outBuf h hbuf, ← parse_eq_ok_iff, hparse] at hprefix
          cases hprefix
    | ok msg =>
        refine ⟨.ok, outFrame.receive msg, rfl, ?_⟩
        rw [FwZerowireFrame.receive_agrees_iff]
        constructor
        · rintro ⟨_, h, rfl⟩
          rw [fwZerowireEncode_take frame outBuf h hbuf]
          exact ⟨h, wire_prefix_of_parse hparse⟩
        · rintro ⟨h, hprefix⟩
          rw [fwZerowireEncode_take frame outBuf h hbuf, ← parse_eq_ok_iff, hparse] at hprefix
          exact ⟨rfl, h, Except.ok.inj hprefix⟩
  · intro h
    refine ⟨by rw [fwZerowireEncode_eq frame outBuf h hbuf], fun trailing => ?_⟩
    have hparse : parse ((frame.message h).wire ++ trailing) = .ok (frame.message h) :=
      parse_of_wire_prefix (List.prefix_append _ _)
    rw [fwZerowireEncode_take frame outBuf h hbuf, fwZerowireDecode_eq, hparse]
    exact ⟨_, rfl, (outFrame.receive_agrees_iff frame _).mpr ⟨h, rfl⟩⟩

/-- A frame with two payload bytes. -/
def sampleFrame : FwZerowireFrame where
  seq := 1
  msgId := 2
  length := 2
  payload := [0xAA, 0x55] ++ List.replicate 254 0
  payload_length := by
    rw [List.length_append, List.length_replicate]
    rfl

theorem fwZerowireDecode_ok_sample :
    (∃ st out, fwZerowireDecode [0xAA, 0x55] sampleFrame = some (st, out) ∧
      ((st = .ok ∧ out.Agrees sampleFrame) ↔ sampleFrame.length.toNat ≤ zerowireMaxPayload ∧
        (fwZerowireEncode sampleFrame (List.replicate 10 0)).2.take
          (fwZerowireEncode sampleFrame (List.replicate 10 0)).1 <+: [0xAA, 0x55])) ∧
    (sampleFrame.length.toNat ≤ zerowireMaxPayload →
      (fwZerowireEncode sampleFrame (List.replicate 10 0)).1 = 8 + sampleFrame.length.toNat ∧
        ∀ trailing, ∃ out, fwZerowireDecode
          ((fwZerowireEncode sampleFrame (List.replicate 10 0)).2.take
            (fwZerowireEncode sampleFrame (List.replicate 10 0)).1 ++ trailing)
            sampleFrame = some (.ok, out) ∧ out.Agrees sampleFrame) :=
  fwZerowireDecode_ok_iff _ _ _ _ (by decide)

end ZeroEmbedded.ZeroWire
