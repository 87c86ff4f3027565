import ZeroEmbedded.Protocol.ZeroWireCodec

/-!
# The codec of the Rust crate

`protocol.rs`, and its agreement with the C codec. An index or a range outside
of a slice panics, and so does a copy between slices of different lengths; a
panic is `none`.

## Implementation notes

The `uint16_t` and `u16` arithmetic wraps around in both languages. The C
functions are compared for spans with a non-null data pointer, which is what a
Rust slice is.
-/

namespace ZeroEmbedded

/-- The value of a `fw_status_t`. -/
def FwStatus.code : FwStatus → Int
  | .ok => 0
  | .errGeneric => -1
  | .errInvalidArg => -2
  | .errOutOfMemory => -3
  | .errBufferOverflow => -4
  | .errTimeout => -5
  | .errBusy => -6
  | .errNotFound => -7
  | .errNotSupported => -8
  | .errIo => -9
  | .errCorrupted => -10
  | .errIsrViolation => -11
  | .errDmaUnaligned => -12

namespace RustProtocol

/-- `FwStatus` of the crate. -/
inductive FwStatus
  | ok
  | errGeneric
  | errInvalidArgument
  | errOutOfMemory
  | errBufferOverflow
  | errTimeout
  | errBusy
  | errNotFound
  | errNotSupported
  | errIo
  | errCorrupted
  | errIsrViolation
  | errDmaUnaligned
  deriving DecidableEq, Repr

/-- The discriminant of a `FwStatus`. -/
def FwStatus.code : FwStatus → Int
  | .ok => 0
  | .errGeneric => -1
  | .errInvalidArgument => -2
  | .errOutOfMemory => -3
  | .errBufferOverflow => -4
  | .errTimeout => -5
  | .errBusy => -6
  | .errNotFound => -7
  | .errNotSupported => -8
  | .errIo => -9
  | .errCorrupted => -10
  | .errIsrViolation => -11
  | .errDmaUnaligned => -12

/-- `ZEROWIRE_SOF0`. -/
def zerowireSof0 : UInt8 := 0xAA

/-- `ZEROWIRE_SOF1`. -/
def zerowireSof1 : UInt8 := 0x55

/-- `ZEROWIRE_HEADER_SIZE`. -/
def zerowireHeaderSize : Nat := 6

/-- `ZEROWIRE_CRC_SIZE`. -/
def zerowireCrcSize : Nat := 2

/-- `ZEROWIRE_MAX_PAYLOAD`. -/
def zerowireMaxPayload : Nat := 256

/-- `RustZerowireFrame`. -/
structure RustZerowireFrame where
  seq : UInt8
  msgId : UInt8
  length : UInt16
  payload : List UInt8
  payload_length : payload.length = zerowireMaxPayload

/-- `RustZerowireFrame::empty`. -/
def RustZerowireFrame.empty : RustZerowireFrame where
  seq := 0
  msgId := 0
  length := 0
  payload := List.replicate zerowireMaxPayload 0
  payload_length := List.length_replicate

/-- One round of the inner loop of `generate_crc_table`. -/
def crcRound (curr : UInt16) : UInt16 :=
  if curr &&& 0x8000 ≠ 0 then (curr <<< 1) ^^^ 0x1021 else curr <<< 1

/-- `generate_crc_table`. -/
def generateCrcTable : List UInt16 :=
  (List.range 256).foldl
    (fun table i =>
      table.set i ((List.range 8).foldl (fun curr _ => crcRound curr) (UInt16.ofNat i <<< 8)))
    (List.replicate 256 0)

/-- `CRC16_TABLE`. -/
def crc16Table : List UInt16 := generateCrcTable

/-- `crc16_ccitt`. -/
def crc16Ccitt (data : List UInt8) : Option UInt16 :=
  data.foldlM (fun crc byte => do
    let idx := ((crc >>> 8).toUInt8 ^^^ byte).toNat
    let entry ← crc16Table[idx]?
    return (crc <<< 8) ^^^ entry) 0xFFFF

/-- `xs[i] = byte`. -/
def storeAt (xs : List UInt8) (i : Nat) (byte : UInt8) : Option (List UInt8) :=
  if i < xs.length then some (xs.set i byte) else none

/-- `&xs[first..last]`. -/
def slice (xs : List UInt8) (first last : Nat) : Option (List UInt8) :=
  if first ≤ last ∧ last ≤ xs.length then some ((xs.take last).drop first) else none

/-- `xs[first..last].copy_from_slice(data)`. -/
def copyFromSlice (xs : List UInt8) (first last : Nat) (data : List UInt8) :
    Option (List UInt8) :=
  if first ≤ last ∧ last ≤ xs.length ∧ data.length = last - first then
    some (xs.take first ++ data ++ xs.drop last)
  else none

/-- `a - b`, which panics below zero. -/
def checkedSub (a b : Nat) : Option Nat := if b ≤ a then some (a - b) else none

/-- The stores of `encode_frame` into the header. -/
def encodeHeader (frame : RustZerowireFrame) (dst : List UInt8) : Option (List UInt8) := do
  let dst ← storeAt dst 0 zerowireSof0
  let dst ← storeAt dst 1 zerowireSof1
  let dst ← storeAt dst 2 frame.seq
  let dst ← storeAt dst 3 frame.msgId
  let dst ← storeAt dst 4 (frame.length &&& 0xFF).toUInt8
  storeAt dst 5 ((frame.length >>> 8) &&& 0xFF).toUInt8

/-- The copy of `encode_frame` into the payload. -/
def encodePayload (frame : RustZerowireFrame) (payloadLen : Nat) (dst : List UInt8) :
    Option (List UInt8) := do
  if payloadLen > 0 then
    let data ← slice frame.payload 0 payloadLen
    copyFromSlice dst 6 (6 + payloadLen) data
  else return dst

/-- The stores of `encode_frame` into the checksum. -/
def encodeCrc (payloadLen totalSize : Nat) (dst : List UInt8) : Option (List UInt8) := do
  let covered ← slice dst 0 (zerowireHeaderSize + payloadLen)
  let crc ← crc16Ccitt covered
  let low ← checkedSub totalSize 2
  let dst ← storeAt dst low (crc &&& 0xFF).toUInt8
  let high ← checkedSub totalSize 1
  storeAt dst high ((crc >>> 8) &&& 0xFF).toUInt8

/-- `encode_frame`: the result and `dst` after it. -/
def encodeFrame (frame : RustZerowireFrame) (dst : List UInt8) :
    Option (Except FwStatus Nat × List UInt8) := do
  let payloadLen := frame.length.toNat
  if payloadLen > zerowireMaxPayload then return (.error .errBufferOverflow, dst)
  let totalSize := zerowireHeaderSize + payloadLen + zerowireCrcSize
  if dst.length < totalSize then return (.error .errBufferOverflow, dst)
  let dst ← encodeHeader frame dst
  let dst ← encodePayload frame payloadLen dst
  let dst ← encodeCrc payloadLen totalSize dst
  return (.ok totalSize, dst)

/-- The payload array of `decode_frame`. -/
def decodePayload (payloadLen : Nat) (src : List UInt8) : Option (List UInt8) := do
  if payloadLen > 0 then
    let data ← slice src 6 (6 + payloadLen)
    copyFromSlice RustZerowireFrame.empty.payload 0 payloadLen data
  else return RustZerowireFrame.empty.payload

/-- `decode_frame`. -/
def decodeFrame (src : List UInt8) : Option (Except FwStatus RustZerowireFrame) := do
  if src.length < zerowireHeaderSize + zerowireCrcSize then return .error .errNotFound
  let b0 ← src[0]?
  -- `||` reads the second byte only when the first one matches
  if b0 ≠ zerowireSof0 then return .error .errCorrupted
  let b1 ← src[1]?
  if b1 ≠ zerowireSof1 then return .error .errCorrupted
  let b4 ← src[4]?
  let b5 ← src[5]?
  let payloadLen := b4.toNat ||| (b5.toNat <<< 8)
  if payloadLen > zerowireMaxPayload then return .error .errBufferOverflow
  let totalExpected := zerowireHeaderSize + payloadLen + zerowireCrcSize
  if src.length < totalExpected then return .error .errNotFound
  let covered ← slice src 0 (zerowireHeaderSize + payloadLen)
  let expectedCrc ← crc16Ccitt covered
  let low ← checkedSub totalExpected 2
  let c0 ← src[low]?
  let high ← checkedSub totalExpected 1
  let c1 ← src[high]?
  let actualCrc := c0.toUInt16 ||| (c1.toUInt16 <<< 8)
  if expectedCrc ≠ actualCrc then return .error .errCorrupted
  let seq ← src[2]?
  let msgId ← src[3]?
  let payload ← decodePayload payloadLen src
  -- an array keeps its length
  if h : payload.length = zerowireMaxPayload then
    return .ok { seq := seq, msgId := msgId, length := UInt16.ofNat payloadLen, payload := payload
                 payload_length := h }
  else none

/-- A table that is filled from the front. -/
theorem foldl_set_range {α : Type} (f : Nat → α) (table : List α) {n : Nat}
    (hn : n ≤ table.length) :
    (List.range n).foldl (fun table i => table.set i (f i)) table =
      (List.range n).map f ++ table.drop n := by
  induction n with
  | zero => rfl
  | succ n ih =>
      have hlength : ((List.range n).map f).length = n := by
        rw [List.length_map, List.length_range]
      rw [List.range_succ, List.foldl_append, ih (Nat.le_of_succ_le hn), List.foldl_cons,
        List.foldl_nil, List.set_append_right _ _ (Nat.le_of_eq hlength), hlength, Nat.sub_self,
        List.drop_eq_getElem_cons hn, List.set_cons_zero, List.map_append, List.append_assoc]
      rfl

/-- Each entry is the remainder of its index in the upper byte. -/
theorem generateCrcTable_eq_map :
    generateCrcTable = (List.range 256).map fun i => crcRound^[8] (UInt16.ofNat i <<< 8) := by
  rw [generateCrcTable, foldl_set_range _ _ (Nat.le_of_eq List.length_replicate.symm),
    List.drop_eq_nil_of_le (Nat.le_of_eq List.length_replicate), List.append_nil]
  rfl

/-- The generated table is the literal one. -/
theorem generateCrcTable_eq : generateCrcTable = ZeroWire.sCrc16Table := by
  rw [generateCrcTable_eq_map]
  decide +kernel

/-- Both ways to find the index into the table. -/
theorem index_eq (crc : UInt16) (byte : UInt8) :
    ((crc >>> 8).toUInt8 ^^^ byte).toNat =
      (((crc >>> 8) ^^^ byte.toUInt16) &&& 0xFF).toNat := by
  have hmask : (0xFF : UInt16).toNat = 2 ^ 8 - 1 := rfl
  have hbyte := byte.toNat_lt
  rw [UInt8.toNat_xor, UInt16.toNat_toUInt8, UInt16.toNat_and, UInt16.toNat_xor,
    UInt8.toNat_toUInt16, hmask, Nat.and_two_pow_sub_one_eq_mod, Nat.xor_mod_two_pow,
    Nat.mod_eq_of_lt hbyte]

/-- The checksum of the crate never indexes behind its table, and runs the loop of
`fw_crc16_ccitt`. -/
theorem crc16Ccitt_eq (data : List UInt8) :
    crc16Ccitt data = some (data.foldl ZeroWire.crc16TableStep 0xFFFF) := by
  have hstep : ∀ (crc : UInt16) (byte : UInt8),
      (do let idx := ((crc >>> 8).toUInt8 ^^^ byte).toNat
          let entry ← crc16Table[idx]?
          return (crc <<< 8) ^^^ entry) = some (ZeroWire.crc16TableStep crc byte) := by
    intro crc byte
    have hlength : crc16Table.length = 256 := by
      rw [crc16Table, generateCrcTable_eq_map, List.length_map, List.length_range]
    have hlt := ((crc >>> 8).toUInt8 ^^^ byte).toNat_lt
    have hentry : crc16Table[((crc >>> 8).toUInt8 ^^^ byte).toNat]? =
        some (ZeroWire.sCrc16Table.getD ((crc >>> 8).toUInt8 ^^^ byte).toNat 0) := by
      rw [List.getD_eq_getElem?_getD, ← generateCrcTable_eq, ← crc16Table,
        List.getElem?_eq_getElem (by omega), Option.getD_some]
    rw [ZeroWire.crc16TableStep, ← index_eq]
    dsimp only
    rw [hentry]
    rfl
  have hfold : ∀ crc : UInt16, data.foldlM (fun crc byte => do
      let idx := ((crc >>> 8).toUInt8 ^^^ byte).toNat
      let entry ← crc16Table[idx]?
      return (crc <<< 8) ^^^ entry) crc = some (data.foldl ZeroWire.crc16TableStep crc) := by
    induction data with
    | nil => exact fun _ => rfl
    | cons byte data ih =>
        intro crc
        rw [List.foldlM_cons, hstep, List.foldl_cons, ← ih]
        rfl
  exact hfold 0xFFFF

/-- On data that is not empty both checksums agree. -/
theorem crc16Ccitt_eq_fwCrc16Ccitt {data : List UInt8} (h : data ≠ []) :
    crc16Ccitt data = some (ZeroWire.fwCrc16Ccitt data) := by
  have hlength : data.length ≠ 0 := fun hzero => h (List.length_eq_zero_iff.mp hzero)
  rw [crc16Ccitt_eq, ZeroWire.fwCrc16Ccitt, if_neg hlength]

section Slices

variable {xs data : List UInt8} {i first last : Nat} {byte : UInt8}

theorem storeAt_eq (h : i < xs.length) : storeAt xs i byte = some (xs.set i byte) := if_pos h

theorem slice_eq (h : first ≤ last) (h' : last ≤ xs.length) :
    slice xs first last = some ((xs.take last).drop first) := if_pos ⟨h, h'⟩

theorem copyFromSlice_eq (h : last ≤ xs.length) (hdata : first + data.length = last) :
    copyFromSlice xs first last data = some (ZeroWire.copyTo xs first data) := by
  have hlength : (xs.take first ++ data ++ xs.drop last).length ≤ xs.length := by
    rw [List.length_append, List.length_append, List.length_take, List.length_drop]
    omega
  rw [copyFromSlice, if_pos ⟨by omega, h, by omega⟩, ZeroWire.copyTo, hdata,
    List.take_of_length_le hlength]

theorem checkedSub_eq {a b : Nat} (h : b ≤ a) : checkedSub a b = some (a - b) := if_pos h

end Slices

section Encode

variable {frame : RustZerowireFrame} {dst : List UInt8} {n : Nat}

theorem encodeHeader_eq (h : 6 ≤ dst.length) :
    encodeHeader frame dst =
      some ((((((dst.set 0 zerowireSof0).set 1 zerowireSof1).set 2 frame.seq).set 3
        frame.msgId).set 4 (frame.length &&& 0xFF).toUInt8).set 5
          ((frame.length >>> 8) &&& 0xFF).toUInt8) := by
  have hroom : ∀ i < 6, ∀ xs : List UInt8, xs.length = dst.length → ∀ byte,
      storeAt xs i byte = some (xs.set i byte) :=
    fun i hi xs hxs _ => storeAt_eq (by omega)
  simp only [encodeHeader, Option.bind_eq_bind]
  rw [hroom 0 (by decide) _ rfl, Option.bind_some, hroom 1 (by decide) _ (by simp),
    Option.bind_some, hroom 2 (by decide) _ (by simp), Option.bind_some,
    hroom 3 (by decide) _ (by simp), Option.bind_some, hroom 4 (by decide) _ (by simp),
    Option.bind_some, hroom 5 (by decide) _ (by simp)]

theorem encodePayload_eq (hn : n ≤ zerowireMaxPayload) (h : 6 + n ≤ dst.length) :
    encodePayload frame n dst =
      some (if n > 0 then ZeroWire.copyTo dst 6 (frame.payload.take n) else dst) := by
  have hpayload := frame.payload_length
  rw [encodePayload]
  split
  · have hdata : 6 + (frame.payload.take n).length = 6 + n := by
      rw [List.length_take]
      omega
    rw [slice_eq (Nat.zero_le n) (by omega), List.drop_zero]
    exact copyFromSlice_eq h hdata
  · rfl

theorem encodeCrc_eq (h : 6 + n + 2 ≤ dst.length) :
    encodeCrc n (6 + n + 2) dst =
      some ((dst.set (6 + n + 2 - 2)
        (ZeroWire.fwCrc16Ccitt (dst.take (6 + n)) &&& 0xFF).toUInt8).set (6 + n + 2 - 1)
          ((ZeroWire.fwCrc16Ccitt (dst.take (6 + n)) >>> 8) &&& 0xFF).toUInt8) := by
  have hcovered : dst.take (6 + n) ≠ [] := by
    apply List.ne_nil_of_length_pos
    rw [List.length_take]
    omega
  have hslice : slice dst 0 (zerowireHeaderSize + n) = some (dst.take (6 + n)) := by
    rw [zerowireHeaderSize, slice_eq (Nat.zero_le _) (by omega), List.drop_zero]
  simp only [encodeCrc, Option.bind_eq_bind, hslice, Option.bind_some,
    crc16Ccitt_eq_fwCrc16Ccitt hcovered]
  rw [checkedSub_eq (by omega), Option.bind_some, storeAt_eq (by omega), Option.bind_some,
    checkedSub_eq (by omega), Option.bind_some, storeAt_eq (by rw [List.length_set]; omega)]

end Encode

/-- The frame of the crate with the fields of a C frame. -/
def RustZerowireFrame.ofC (frame : ZeroWire.FwZerowireFrame) : RustZerowireFrame where
  seq := frame.seq
  msgId := frame.msgId
  length := frame.length
  payload := frame.payload
  payload_length := frame.payload_length

/-- The encoder of the crate never panics, returns what the C encoder returns, and leaves the same
bytes. -/
theorem encodeFrame_eq (frame : ZeroWire.FwZerowireFrame) (dst : List UInt8) :
    encodeFrame (RustZerowireFrame.ofC frame) dst =
      some (if (ZeroWire.fwZerowireEncode frame dst).1 = 0 then .error .errBufferOverflow
        else .ok (ZeroWire.fwZerowireEncode frame dst).1,
        (ZeroWire.fwZerowireEncode frame dst).2) := by
  have hlength : (RustZerowireFrame.ofC frame).length = frame.length := rfl
  rw [encodeFrame, ZeroWire.fwZerowireEncode, hlength]
  by_cases hbig : frame.length.toNat > zerowireMaxPayload
  · rw [if_pos hbig, if_pos (show frame.length.toNat > ZeroWire.zerowireMaxPayload from hbig)]
    rfl
  rw [if_neg hbig, if_neg (show ¬ frame.length.toNat > ZeroWire.zerowireMaxPayload from hbig)]
  by_cases hshort : dst.length < zerowireHeaderSize + frame.length.toNat + zerowireCrcSize
  · rw [if_pos hshort, if_pos (show dst.length < ZeroWire.zerowireHeaderSize +
      frame.length.toNat + ZeroWire.zerowireCrcSize from hshort)]
    rfl
  rw [if_neg hshort, if_neg (show ¬ dst.length < ZeroWire.zerowireHeaderSize +
      frame.length.toNat + ZeroWire.zerowireCrcSize from hshort)]
  rw [zerowireHeaderSize, zerowireCrcSize] at hshort
  have hheader : encodeHeader (RustZerowireFrame.ofC frame) dst = _ := encodeHeader_eq (by omega)
  dsimp only
  rw [hheader]
  simp only [Option.bind_eq_bind, Option.bind_some]
  change (Option.bind (encodePayload _ _ ((((((dst.set 0 ZeroWire.zerowireSof0).set 1
      ZeroWire.zerowireSof1).set 2 frame.seq).set 3 frame.msgId).set 4
        (frame.length &&& 0xFF).toUInt8).set 5 ((frame.length >>> 8) &&& 0xFF).toUInt8)) _) = _
  generalize hset : (((((dst.set 0 ZeroWire.zerowireSof0).set 1
      ZeroWire.zerowireSof1).set 2 frame.seq).set 3 frame.msgId).set 4
        (frame.length &&& 0xFF).toUInt8).set 5 ((frame.length >>> 8) &&& 0xFF).toUInt8 = header
  have hheaderLength : header.length = dst.length := by
    rw [← hset]
    simp only [List.length_set]
  rw [encodePayload_eq (Nat.not_lt.mp hbig) (by omega), Option.bind_some]
  change (Option.bind (encodeCrc _ _ (if frame.length.toNat > 0 then
    ZeroWire.copyTo header 6 (frame.payload.take frame.length.toNat) else header)) _) = _
  generalize hcopy : (if frame.length.toNat > 0 then
    ZeroWire.copyTo header 6 (frame.payload.take frame.length.toNat) else header) = copied
  have hcopiedLength : copied.length = header.length := by
    rw [← hcopy]
    split
    · rw [ZeroWire.copyTo, List.length_take, List.length_append, List.length_append,
        List.length_take, List.length_drop]
      omega
    · rfl
  have hcrc : encodeCrc frame.length.toNat (6 + frame.length.toNat + 2) copied = _ :=
    encodeCrc_eq (by omega)
  change (Option.bind (encodeCrc frame.length.toNat (6 + frame.length.toNat + 2) copied) _) = _
  rw [hcrc, Option.bind_some, if_neg (by
    rw [ZeroWire.zerowireHeaderSize]
    omega)]
  rfl

/-- The status of the crate with the code of a C status. -/
def FwStatus.ofC : ZeroEmbedded.FwStatus → FwStatus
  | .ok => .ok
  | .errGeneric => .errGeneric
  | .errInvalidArg => .errInvalidArgument
  | .errOutOfMemory => .errOutOfMemory
  | .errBufferOverflow => .errBufferOverflow
  | .errTimeout => .errTimeout
  | .errBusy => .errBusy
  | .errNotFound => .errNotFound
  | .errNotSupported => .errNotSupported
  | .errIo => .errIo
  | .errCorrupted => .errCorrupted
  | .errIsrViolation => .errIsrViolation
  | .errDmaUnaligned => .errDmaUnaligned

theorem FwStatus.code_ofC (status : ZeroEmbedded.FwStatus) :
    (FwStatus.ofC status).code = status.code := by cases status <;> rfl

/-- Two bytes joined by `|` and `<<` in `usize`. -/
theorem or_shift_eq (a b : UInt8) : a.toNat ||| (b.toNat <<< 8) = (ofLe16 a b).toNat := by
  have ha := a.toNat_lt
  have hb := b.toNat_lt
  rw [Nat.or_comm, ← Nat.shiftLeft_add_eq_or_of_lt ha, Nat.shiftLeft_eq, ofLe16,
    UInt16.toNat_ofNat', Nat.mod_eq_of_lt (by omega)]
  omega

theorem copyTo_empty_length (data : List UInt8) :
    (ZeroWire.copyTo RustZerowireFrame.empty.payload 0 data).length = zerowireMaxPayload := by
  have hempty := RustZerowireFrame.empty.payload_length
  rw [ZeroWire.copyTo, List.length_take, List.length_append, List.length_append,
    List.length_take, List.length_drop]
  omega

/-- The frame that `decode_frame` returns for a message. -/
def RustZerowireFrame.ofMessage (msg : ZeroWire.Message) : RustZerowireFrame where
  seq := msg.seq
  msgId := msg.msgId
  length := UInt16.ofNat msg.data.length
  payload := ZeroWire.copyTo RustZerowireFrame.empty.payload 0 msg.data
  payload_length := copyTo_empty_length msg.data

theorem decodePayload_eq {src : List UInt8} {n : Nat} (hn : n ≤ zerowireMaxPayload)
    (h : 6 + n ≤ src.length) :
    decodePayload n src =
      some (ZeroWire.copyTo RustZerowireFrame.empty.payload 0 ((src.drop 6).take n)) := by
  have hempty := RustZerowireFrame.empty.payload_length
  rw [decodePayload]
  split
  · have hslice : slice src 6 (6 + n) = some ((src.drop 6).take n) := by
      rw [slice_eq (by omega) h, List.drop_take, Nat.add_sub_cancel_left]
    have hdata : 0 + ((src.drop 6).take n).length = n := by
      rw [List.length_take, List.length_drop]
      omega
    rw [hslice]
    exact copyFromSlice_eq (by omega) hdata
  · next hpos =>
      have hzero : n = 0 := by omega
      rw [hzero, List.take_zero, ZeroWire.copyTo, List.take_zero, List.append_nil, List.nil_append,
        List.length_nil, List.drop_zero, List.take_length]
      rfl

theorem sof0_eq : zerowireSof0 = ZeroWire.zerowireSof0 := rfl

theorem sof1_eq : zerowireSof1 = ZeroWire.zerowireSof1 := rfl

/-- The decoder of the crate never panics, and parses what the C decoder parses. -/
theorem decodeFrame_eq (src : List UInt8) :
    decodeFrame src = some (match ZeroWire.parse src with
      | .error e => .error (FwStatus.ofC e)
      | .ok msg => .ok (RustZerowireFrame.ofMessage msg)) := by
  rw [decodeFrame]
  by_cases hlen : src.length < 8
  · rw [if_pos (show src.length < zerowireHeaderSize + zerowireCrcSize from hlen),
      ZeroWire.parse_of_short hlen]
    rfl
  rw [if_neg (show ¬ src.length < zerowireHeaderSize + zerowireCrcSize from hlen)]
  obtain ⟨b0, b1, b2, b3, b4, b5, rest, rfl, hrest⟩ := ZeroWire.exists_header hlen
  simp only [List.getElem?_cons_zero, List.getElem?_cons_succ, Option.bind_eq_bind,
    Option.bind_some, or_shift_eq, ZeroWire.or_shift_eq_ofLe16, ZeroWire.parse,
    if_neg (Nat.not_lt.mpr hrest), sof0_eq, sof1_eq]
  by_cases hsof0 : b0 = ZeroWire.zerowireSof0
  swap
  · rw [if_pos hsof0, if_pos (Or.inl hsof0)]
    rfl
  by_cases hsof1 : b1 = ZeroWire.zerowireSof1
  swap
  · rw [if_neg (not_not.mpr hsof0), if_pos hsof1, if_pos (Or.inr hsof1)]
    rfl
  rw [if_neg (not_not.mpr hsof0), if_neg (not_not.mpr hsof1),
    if_neg (not_or.mpr ⟨not_not.mpr hsof0, not_not.mpr hsof1⟩)]
  generalize ofLe16 b4 b5 = word
  rw [ZeroWire.parseRest]
  by_cases hbig : word.toNat > zerowireMaxPayload
  · rw [if_pos hbig, dif_pos (show word.toNat > ZeroWire.zerowireMaxPayload from hbig)]
    rfl
  rw [if_neg hbig, dif_neg (show ¬ word.toNat > ZeroWire.zerowireMaxPayload from hbig)]
  have htotal : zerowireHeaderSize + word.toNat + zerowireCrcSize = word.toNat + 2 + 6 := by
    rw [zerowireHeaderSize, zerowireCrcSize]
    omega
  rw [htotal]
  have hiff := ZeroWire.short_iff b0 b1 b2 b3 b4 b5 rest word.toNat
  by_cases hshort : rest.length < word.toNat + 2
  · rw [if_pos (hiff.mpr hshort), if_pos hshort]
    rfl
  rw [if_neg (mt hiff.mp hshort), if_neg hshort]
  have hcovered : slice (b0 :: b1 :: b2 :: b3 :: b4 :: b5 :: rest) 0
      (zerowireHeaderSize + word.toNat) =
        some ([b0, b1, b2, b3, b4, b5] ++ rest.take word.toNat) := by
    rw [slice_eq (Nat.zero_le _) (by simp only [zerowireHeaderSize, List.length_cons]; omega),
      zerowireHeaderSize, Nat.add_comm 6]
    rfl
  have hcrcOf : crc16Ccitt ([b0, b1, b2, b3, b4, b5] ++ rest.take word.toNat) =
      some (ZeroWire.fwCrc16Ccitt ([b0, b1, b2, b3, b4, b5] ++ rest.take word.toNat)) :=
    crc16Ccitt_eq_fwCrc16Ccitt (List.cons_ne_nil _ _)
  have hdata : decodePayload word.toNat (b0 :: b1 :: b2 :: b3 :: b4 :: b5 :: rest) =
      some (ZeroWire.copyTo RustZerowireFrame.empty.payload 0 (rest.take word.toNat)) :=
    decodePayload_eq (Nat.not_lt.mp hbig) (by simp only [List.length_cons]; omega)
  have hc0 : (b0 :: b1 :: b2 :: b3 :: b4 :: b5 :: rest)[word.toNat + 2 + 6 - 2]? =
      some (rest.getD word.toNat 0) := ZeroWire.getElem?_of_lt rest (by omega)
  have hc1 : (b0 :: b1 :: b2 :: b3 :: b4 :: b5 :: rest)[word.toNat + 2 + 6 - 1]? =
      some (rest.getD (word.toNat + 1) 0) := ZeroWire.getElem?_of_lt rest (by omega)
  have hlow : checkedSub (word.toNat + 2 + 6) 2 = some (word.toNat + 2 + 6 - 2) :=
    checkedSub_eq (by omega)
  have hhigh : checkedSub (word.toNat + 2 + 6) 1 = some (word.toNat + 2 + 6 - 1) :=
    checkedSub_eq (by omega)
  simp only [hcovered, hcrcOf, hlow, hhigh, hdata, hc0, hc1, Option.bind_some]
  by_cases hcrc : ZeroWire.fwCrc16Ccitt ([b0, b1, b2, b3, b4, b5] ++ rest.take word.toNat) =
      ofLe16 (rest.getD word.toNat 0) (rest.getD (word.toNat + 1) 0)
  swap
  · rw [if_pos hcrc, if_pos hcrc]
    rfl
  rw [if_neg (not_not.mpr hcrc), if_neg (not_not.mpr hcrc), dif_pos (copyTo_empty_length _)]
  have hlength : (rest.take word.toNat).length = word.toNat := by
    rw [List.length_take]
    omega
  simp only [RustZerowireFrame.ofMessage, hlength]
  rfl

/-- The status that the exported C functions of the crate return for a result. -/
def statusOf {α : Type} : Except FwStatus α → FwStatus
  | .ok _ => .ok
  | .error e => e

/-- A C frame and a frame of the crate have the same fields and payload. -/
def SameFrame (frame : ZeroWire.FwZerowireFrame) (decoded : RustZerowireFrame) : Prop :=
  frame.seq = decoded.seq ∧ frame.msgId = decoded.msgId ∧ frame.length = decoded.length ∧
    frame.payload.take frame.length.toNat = decoded.payload.take decoded.length.toNat

theorem receive_sameFrame (outFrame : ZeroWire.FwZerowireFrame) (msg : ZeroWire.Message) :
    SameFrame (outFrame.receive msg) (RustZerowireFrame.ofMessage msg) := by
  have hword : (outFrame.receive msg).length.toNat = msg.data.length := msg.length_toNat
  have hle := msg.data_le
  have hempty := RustZerowireFrame.empty.payload_length
  rw [ZeroWire.zerowireMaxPayload] at hle
  rw [zerowireMaxPayload] at hempty
  refine ⟨rfl, rfl, rfl, ?_⟩
  have hdecoded : (RustZerowireFrame.ofMessage msg).payload.take msg.data.length = msg.data := by
    have hmin : min msg.data.length RustZerowireFrame.empty.payload.length = msg.data.length :=
      Nat.min_eq_left (by omega)
    rw [RustZerowireFrame.ofMessage]
    dsimp only
    rw [ZeroWire.copyTo, List.take_take, List.take_zero, List.nil_append, hmin]
    exact List.take_left' rfl
  calc (outFrame.receive msg).payload.take (outFrame.receive msg).length.toNat
      = msg.data := by rw [hword, outFrame.receive_payload msg]
    _ = (RustZerowireFrame.ofMessage msg).payload.take msg.data.length := hdecoded.symm
    _ = (RustZerowireFrame.ofMessage msg).payload.take
          (RustZerowireFrame.ofMessage msg).length.toNat := by
        rw [show (RustZerowireFrame.ofMessage msg).length.toNat = msg.data.length from
          msg.length_toNat]

/-- The two engines agree: they decode every input with the same status and the same frame, and
encode every frame into every buffer with the same length and the same bytes. -/
theorem engines_agree (src dst : List UInt8) (outFrame frame : ZeroWire.FwZerowireFrame) :
    (∃ st out r, ZeroWire.fwZerowireDecode src outFrame = some (st, out) ∧
      decodeFrame src = some r ∧ st.code = (statusOf r).code ∧
      (st = .ok ↔ ∃ decoded, r = .ok decoded) ∧
      ∀ decoded, r = .ok decoded → SameFrame out decoded) ∧
    ∃ r, encodeFrame (RustZerowireFrame.ofC frame) dst = some r ∧
      (∀ n, ((ZeroWire.fwZerowireEncode frame dst).1 = n ∧ n > 0) ↔ r.1 = .ok n) ∧
      ∀ n, r.1 = .ok n → (ZeroWire.fwZerowireEncode frame dst).2.take n = r.2.take n := by
  constructor
  · rw [ZeroWire.fwZerowireDecode_eq, decodeFrame_eq]
    cases hparse : ZeroWire.parse src with
    | error e =>
        refine ⟨e, outFrame, _, rfl, rfl, (FwStatus.code_ofC e).symm, ?_, fun _ h => nomatch h⟩
        refine iff_of_false ?_ fun ⟨_, h⟩ => nomatch h
        rintro rfl
        exact ZeroWire.parse_ne_error_ok src hparse
    | ok msg =>
        refine ⟨.ok, outFrame.receive msg, .ok (RustZerowireFrame.ofMessage msg), rfl, rfl, rfl,
          ⟨fun _ => ⟨_, rfl⟩, fun _ => rfl⟩, ?_⟩
        intro decoded h
        rw [← Except.ok.inj h]
        exact receive_sameFrame outFrame msg
  · refine ⟨_, encodeFrame_eq frame dst, ?_, fun _ _ => rfl⟩
    intro n
    dsimp only
    split
    · next hzero =>
        refine iff_of_false ?_ fun h => nomatch h
        rintro ⟨rfl, hpos⟩
        exact Nat.ne_of_gt hpos hzero
    · next hpos =>
        constructor
        · rintro ⟨rfl, -⟩
          rfl
        · intro h
          cases h
          exact ⟨rfl, Nat.pos_of_ne_zero hpos⟩

end RustProtocol

end ZeroEmbedded
