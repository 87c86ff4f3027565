import ZeroEmbedded.Storage.NvsCompact

/-!
# Appending records

`fw_nvs_write` and `fw_nvs_delete` program a record behind the log, after a
compaction when the bank is full. A written record is programmed as header,
payload and padding, each by its own call.
-/

namespace ZeroEmbedded.Nvs

open Foundation

/-- The header that `fw_nvs_write` programs for a value. -/
def valueHdr (key : UInt16) (data : List UInt8) : RecordHdr where
  key := key
  length := UInt16.ofNat data.length
  crc16 := calcRecordCrc key (UInt16.ofNat data.length) data
  status := fwNvsStatusValid

/-- The header that `fw_nvs_delete` programs. -/
def tombstoneHdr (key : UInt16) : RecordHdr where
  key := key
  length := 0
  crc16 := calcRecordCrc key 0 []
  status := fwNvsStatusDead

theorem valueHdr_length {key : UInt16} {data : List UInt8} (h : data.length < 2 ^ 16) :
    (valueHdr key data).length.toNat = data.length := by
  simp only [valueHdr, UInt16.toNat_ofNat']
  exact Nat.mod_eq_of_lt h

/-- Length of the padding behind a payload. -/
def padLength (data : List UInt8) : Nat := alignUp4 data.length - data.length

theorem padLength_eq {data : List UInt8} (h : data.length < 2 ^ 16) :
    data.length + padLength data = alignUp4 data.length := by
  rw [padLength, alignUp4_eq (by omega)]
  omega

/-- The complete record of a value. -/
def valueRecord (key : UInt16) (data : List UInt8) (hkey : key ≠ fwNvsKeyEmpty)
    (hlen : data.length < 2 ^ 16) : NvsRecord where
  hdr := valueHdr key data
  body := data ++ List.replicate (padLength data) 0xFF
  body_length := by
    rw [valueHdr_length hlen, List.length_append, List.length_replicate, padLength_eq hlen]
  key_ne := hkey

/-- The record of a deleted key. -/
def tombstone (key : UInt16) (hkey : key ≠ fwNvsKeyEmpty) : NvsRecord where
  hdr := tombstoneHdr key
  body := []
  body_length := (alignUp4_eq (by decide : 0 < 2 ^ 17)).symm
  key_ne := hkey

/-- The payload and the padding that `fw_nvs_write` programs. -/
def bodyChunks (data : List UInt8) : List (List UInt8) :=
  if data.length > 0 then
    data ::
      if alignUp4 data.length > data.length then [List.replicate (padLength data) 0xFF] else []
  else []

/-- The programs that `fw_nvs_write` issues for a value, in order. -/
def valueChunks (key : UInt16) (data : List UInt8) : List (List UInt8) :=
  (valueHdr key data).bytes :: bodyChunks data

section Records

variable {key : UInt16} {data : List UInt8} (hkey : key ≠ fwNvsKeyEmpty)
  (hlen : data.length < 2 ^ 16)

theorem valueRecord_length : (valueRecord key data hkey hlen).length = data.length :=
  valueHdr_length hlen

theorem valueRecord_payload : (valueRecord key data hkey hlen).payload = data := by
  rw [NvsRecord.payload, valueRecord_length]
  exact List.take_left' rfl

theorem valueRecord_valid : (valueRecord key data hkey hlen).valid = true := rfl

theorem valueRecord_intact : (valueRecord key data hkey hlen).intact := by
  rw [NvsRecord.intact, valueRecord_payload]
  rfl

theorem valueRecord_size : (valueRecord key data hkey hlen).size = 8 + alignUp4 data.length := by
  rw [NvsRecord.size_eq, valueRecord_length, alignUp4_eq (by omega)]

theorem tombstone_length : (tombstone key hkey).length = 0 := rfl

theorem tombstone_size : (tombstone key hkey).size = 8 := by
  rw [NvsRecord.size_eq, tombstone_length]

include hlen in
theorem bodyChunks_flatten :
    (bodyChunks data).flatten = data ++ List.replicate (padLength data) 0xFF := by
  have hpad := padLength_eq hlen
  rw [bodyChunks]
  by_cases h0 : data.length > 0
  · rw [if_pos h0, List.flatten_cons]
    by_cases h1 : alignUp4 data.length > data.length
    · rw [if_pos h1]
      simp
    · have hz : padLength data = 0 := by omega
      rw [if_neg h1]
      simp [hz]
  · have hnil : data = [] := by simpa using h0
    subst hnil
    rfl

/-- The programs together write the record. -/
theorem valueChunks_flatten :
    (valueChunks key data).flatten = (valueRecord key data hkey hlen).bytes := by
  rw [valueChunks, List.flatten_cons, bodyChunks_flatten hlen, NvsRecord.bytes, valueRecord]

end Records

section Append

variable {L : BankLayout} {m : Memory} {b : Fin 2} {seq : UInt32} {log : List NvsRecord}

/-- With room for a header the cells behind the log are erased. -/
theorem ActiveBank.holds_of_room (h : ActiveBank L m b seq log)
    (hroom : sectorHdrSize + logSize log + recordHdrSize ≤ L.sectorSize) :
    m.Holds (L.addr b) L.sectorSize (bankImage seq log) := by
  obtain ⟨slack, hh, ht⟩ := h
  have hslack : slack = [] := by
    by_contra hne
    have := ht hne
    omega
  subst hslack
  simpa using hh

/-- Programs inside the active bank leave the other bank as it was. -/
theorem standby_programAll {m : Memory} {off : Nat} {chunks : List (List UInt8)}
    (hfit : off + chunks.flatten.length ≤ L.sectorSize) :
    hdrAt (m.programAll (L.addr b + off) chunks) (L.addr (1 - b)) = hdrAt m (L.addr (1 - b)) := by
  have hd := L.addr_disjoint b
  have hS := L.sectorSize_ge
  rw [hdrAt, hdrAt]
  congr 1
  refine Memory.bytesAt_congr fun x hl hr => Memory.programAll_of_outside ?_
  rw [sectorHdrSize] at hr
  omega

/-- Chunks programmed behind the log extend the image of the bank. -/
theorem ActiveBank.programAll (h : ActiveBank L m b seq log) {chunks : List (List UInt8)}
    (hroom : sectorHdrSize + logSize log + recordHdrSize ≤ L.sectorSize)
    (hfit : sectorHdrSize + logSize log + chunks.flatten.length ≤ L.sectorSize) :
    (m.programAll (L.addr b + (sectorHdrSize + logSize log)) chunks).Holds (L.addr b) L.sectorSize
      (bankImage seq log ++ chunks.flatten) :=
  (h.holds_of_room hroom).programAll_append (by rw [bankImage_length, sectorHdrSize])
    (by rw [bankImage_length]; exact hfit)

/-- A record programmed up to trailing erased bytes is the last record of the log. -/
theorem OnFlash.append_cut (h : OnFlash L m b seq log) {r : NvsRecord} {n : Nat}
    {chunks : List (List UInt8)} (hchunks : chunks.flatten ++ List.replicate n 0xFF = r.bytes)
    (hroom : sectorHdrSize + logSize log + r.size ≤ L.sectorSize) :
    OnFlash L (m.programAll (L.addr b + (sectorHdrSize + logSize log)) chunks) b seq
      (log ++ [r]) := by
  have hge := r.size_ge
  have hlen : chunks.flatten.length + n = r.size := by
    rw [NvsRecord.size, ← hchunks, List.length_append, List.length_replicate]
  constructor
  · have hfit : sectorHdrSize + logSize log + chunks.flatten.length ≤ L.sectorSize := by omega
    have hh := h.active.programAll (by rw [recordHdrSize]; omega) hfit
    have hh' := hh.append_erased (n := n) (by
      rw [List.length_append, bankImage_length, Nat.add_assoc, hlen]
      exact hroom)
    rw [List.append_assoc, hchunks] at hh'
    exact ⟨[], by simpa [bankImage] using hh', fun hne => absurd rfl hne⟩
  · rw [standby_programAll (by omega)]
    exact h.standby

theorem OnFlash.append (h : OnFlash L m b seq log) {r : NvsRecord} {chunks : List (List UInt8)}
    (hchunks : chunks.flatten = r.bytes)
    (hroom : sectorHdrSize + logSize log + r.size ≤ L.sectorSize) :
    OnFlash L (m.programAll (L.addr b + (sectorHdrSize + logSize log)) chunks) b seq (log ++ [r]) :=
  h.append_cut (n := 0) (by rw [hchunks, List.replicate_zero, List.append_nil]) hroom

end Append

section Write

variable {L : BankLayout} {m : Memory} {b : Fin 2} {seq : UInt32} {log : List NvsRecord}
  {key : UInt16} {data : List UInt8}

theorem writePayload_yields {S a : Nat} (ha : a + 8 + alignUp4 data.length ≤ 2 ^ 32)
    (hlen : data.length < 2 ^ 16) :
    FlashYields S m (writePayload a data data.length (alignUp4 data.length))
      (writesFrom (a + recordHdrSize) (bodyChunks data)) .ok
      (m.programAll (a + recordHdrSize) (bodyChunks data)) := by
  have hpad := padLength_eq hlen
  rw [writePayload, bodyChunks]
  by_cases h0 : data.length > 0
  · have ha0 : u32 (a + recordHdrSize) = a + recordHdrSize :=
      u32_of_lt (by rw [recordHdrSize]; omega)
    rw [if_pos h0, if_pos h0, List.take_length, ha0]
    refine FlashYields.write ?_
    by_cases h1 : alignUp4 data.length > data.length
    · have ha1 : u32 (a + recordHdrSize + data.length) = a + recordHdrSize + data.length :=
        u32_of_lt (by rw [recordHdrSize]; omega)
      simp only [ne_eq, not_true_eq_false, if_false, if_pos h1, ha1]
      exact FlashYields.lastWrite _ _
    · simp only [ne_eq, not_true_eq_false, if_false, if_neg h1]
      exact Program.Yields.ret _ _
  · rw [if_neg h0, if_neg h0]
    exact Program.Yields.ret _ _

/-- The append of a value that fits, with its addresses and offsets worked out. -/
theorem appendRecord_eq (hlen : data.length < 2 ^ 16)
    (hroom : sectorHdrSize + logSize log + (8 + alignUp4 data.length) ≤ L.sectorSize) :
    appendRecord (ram L b seq log) key data = do
      let st ← flashWrite (L.addr b + (sectorHdrSize + logSize log)) (valueHdr key data).bytes
      if st ≠ .ok then return (st, ram L b seq log)
      let st ← writePayload (L.addr b + (sectorHdrSize + logSize log)) data data.length
        (alignUp4 data.length)
      if st ≠ .ok then return (st, ram L b seq log)
      return (.ok, { ram L b seq log with
        writeOffset := sectorHdrSize + logSize log + (8 + alignUp4 data.length) }) := by
  have hS := L.addr_le b
  have hsz := L.sectorSize_le
  have hn : u32 data.length = data.length := u32_of_lt (by omega)
  have haddr : u32 (L.addr b + (sectorHdrSize + logSize log)) =
      L.addr b + (sectorHdrSize + logSize log) := u32_of_lt (by omega)
  have htotal : u32 (recordHdrSize + alignUp4 data.length) = 8 + alignUp4 data.length :=
    u32_of_lt (by rw [recordHdrSize]; omega)
  have hoff : u32 (sectorHdrSize + logSize log + (8 + alignUp4 data.length)) =
      sectorHdrSize + logSize log + (8 + alignUp4 data.length) := u32_of_lt (by omega)
  rw [appendRecord]
  simp only [ram_bankAddr, ram_activeBank, ram_writeOffset, hn, haddr, htotal, hoff]
  rfl

/-- A value that fits is programmed behind the log as header, payload and padding. -/
theorem appendRecord_yields (hkey : key ≠ fwNvsKeyEmpty) (hlen : data.length < 2 ^ 16)
    (hroom : sectorHdrSize + logSize log + (8 + alignUp4 data.length) ≤ L.sectorSize) :
    FlashYields L.sectorSize m (appendRecord (ram L b seq log) key data)
      (writesFrom (L.addr b + (sectorHdrSize + logSize log)) (valueChunks key data))
      (.ok, ram L b seq (log ++ [valueRecord key data hkey hlen]))
      (m.programAll (L.addr b + (sectorHdrSize + logSize log)) (valueChunks key data)) := by
  have hS := L.addr_le b
  have hoff : sectorHdrSize + logSize log + (8 + alignUp4 data.length) =
      sectorHdrSize + logSize (log ++ [valueRecord key data hkey hlen]) := by
    rw [logSize_append, logSize_cons, valueRecord_size, logSize_nil]
    omega
  have hbody := writePayload_yields (S := L.sectorSize)
    (m := m.program (L.addr b + (sectorHdrSize + logSize log)) (valueHdr key data).bytes)
    (a := L.addr b + (sectorHdrSize + logSize log)) (by omega) hlen
  rw [appendRecord_eq hlen hroom, hoff]
  refine FlashYields.write ?_
  simp only [ne_eq, not_true_eq_false, if_false]
  exact hbody.bind_observing (Program.Yields.ret _ _)

end Write

end ZeroEmbedded.Nvs
