import ZeroEmbedded.Storage.Flash

/-!
# The dual-bank key-value store

The functions of `nvs.c` over the flash driver. `fw_nvs_t` is passed and
returned explicitly, and each `FW_CHECK` is a test of the status followed by
an early return.

## Implementation notes

Pointer arguments are values, so the null tests have no counterpart. The
`while` loops run on `loopFuel`: a loop whose only variable is a 32-bit offset
into constant flash either ends within `2 ^ 32` rounds or never, and a loop
that never ends is `Program.stuck`.
-/

namespace ZeroEmbedded.Nvs

open Foundation

/-- `FW_NVS_MAGIC`. -/
def fwNvsMagic : UInt32 := 0x5A45524F

/-- `FW_NVS_KEY_EMPTY`. -/
def fwNvsKeyEmpty : UInt16 := 0xFFFF

/-- `FW_NVS_STATUS_VALID`. -/
def fwNvsStatusValid : UInt16 := 0xFFFF

/-- `FW_NVS_STATUS_DEAD`. -/
def fwNvsStatusDead : UInt16 := 0x0000

/-- `FW_NVS_SECTOR_ACTIVE`. -/
def fwNvsSectorActive : UInt32 := 0x5555AAAA

/-- `fw_nvs_sector_hdr_t`. -/
structure SectorHdr where
  magic : UInt32
  state : UInt32
  sequence : UInt32
  reserved : UInt32
  deriving DecidableEq, Repr

/-- `fw_nvs_record_hdr_t`. -/
structure RecordHdr where
  key : UInt16
  length : UInt16
  crc16 : UInt16
  status : UInt16
  deriving DecidableEq, Repr

/-- `sizeof(fw_nvs_sector_hdr_t)`. -/
def sectorHdrSize : Nat := 16

/-- `sizeof(fw_nvs_record_hdr_t)`. -/
def recordHdrSize : Nat := 8

def SectorHdr.bytes (h : SectorHdr) : List UInt8 :=
  le32 h.magic ++ le32 h.state ++ le32 h.sequence ++ le32 h.reserved

def SectorHdr.ofBytes (b : List UInt8) : SectorHdr where
  magic := ofLe32 (b.getD 0 0) (b.getD 1 0) (b.getD 2 0) (b.getD 3 0)
  state := ofLe32 (b.getD 4 0) (b.getD 5 0) (b.getD 6 0) (b.getD 7 0)
  sequence := ofLe32 (b.getD 8 0) (b.getD 9 0) (b.getD 10 0) (b.getD 11 0)
  reserved := ofLe32 (b.getD 12 0) (b.getD 13 0) (b.getD 14 0) (b.getD 15 0)

def RecordHdr.bytes (h : RecordHdr) : List UInt8 :=
  le16 h.key ++ le16 h.length ++ le16 h.crc16 ++ le16 h.status

def RecordHdr.ofBytes (b : List UInt8) : RecordHdr where
  key := ofLe16 (b.getD 0 0) (b.getD 1 0)
  length := ofLe16 (b.getD 2 0) (b.getD 3 0)
  crc16 := ofLe16 (b.getD 4 0) (b.getD 5 0)
  status := ofLe16 (b.getD 6 0) (b.getD 7 0)

/-- The two banks are 0 and 1. -/
instance instNeZeroBanks : NeZero 2 := ⟨by decide⟩

/-- `fw_nvs_t`. -/
structure FwNvs where
  flash : FwFlashDriver
  bankAddr : Fin 2 → Nat
  activeBank : Fin 2
  writeOffset : Nat
  sequence : UInt32

/-- `ALIGN_UP_4`: add three in `uint32_t` and clear the two low bits. -/
def alignUp4 (x : Nat) : Nat := u32 (u32 x + 3) &&& 0xFFFFFFFC

/-- One round of the inner loop of `crc16_step`. -/
def crc16Bit (crc : UInt16) : UInt16 :=
  if crc &&& 0x8000 ≠ 0 then (crc <<< 1) ^^^ 0x1021 else crc <<< 1

/-- One round of the outer loop of `crc16_step`. -/
def crc16Byte (crc : UInt16) (byte : UInt8) : UInt16 :=
  crc16Bit^[8] (crc ^^^ (byte.toUInt16 <<< 8))

def crc16Step (crc : UInt16) (data : List UInt8) : UInt16 :=
  data.foldl crc16Byte crc

def calcRecordCrc (key length : UInt16) (payload : List UInt8) : UInt16 :=
  let header := [(key &&& 0xFF).toUInt8, ((key >>> 8) &&& 0xFF).toUInt8,
    (length &&& 0xFF).toUInt8, ((length >>> 8) &&& 0xFF).toUInt8]
  let crc := crc16Step 0xFFFF header
  if 0 < length.toNat then crc16Step crc (payload.take length.toNat) else crc

/-- Rounds after which a loop over a 32-bit offset has repeated itself. -/
@[irreducible] def loopFuel : Nat := 2 ^ 32

/-- The total size of the record that a header announces. -/
def recTotal (hdr : RecordHdr) : Nat := u32 (recordHdrSize + alignUp4 hdr.length.toNat)

/-- The loop of `scan_write_offset`; every exit leaves `offset` in `write_offset`. -/
def scanLoop (T : Target) (base maxSize : Nat) : Nat → Nat → FlashM Nat
  | 0, _ => .stuck
  | fuel + 1, offset =>
      if T.size (offset + recordHdrSize) ≤ maxSize then do
        let (st, buf) ← flashRead (u32 (base + offset)) recordHdrSize
        if st ≠ .ok then return offset
        let hdr := RecordHdr.ofBytes buf
        if hdr.key = fwNvsKeyEmpty then return offset
        if u32 (offset + recTotal hdr) > maxSize then return offset
        scanLoop T base maxSize fuel (u32 (offset + recTotal hdr))
      else return offset

def scanWriteOffset (T : Target) (nvs : FwNvs) : FlashM FwNvs := do
  let base := nvs.bankAddr nvs.activeBank
  let offset ← scanLoop T base nvs.flash.sectorSize loopFuel sectorHdrSize
  return { nvs with writeOffset := offset }

/-- The header of an active bank. -/
def activeHdr (sequence : UInt32) : SectorHdr where
  magic := fwNvsMagic
  state := fwNvsSectorActive
  sequence := sequence
  reserved := 0xFFFFFFFF

def fwNvsFormat (nvs : FwNvs) : FlashM (FwStatus × FwNvs) := do
  let st ← flashErase (nvs.bankAddr 0)
  if st ≠ .ok then return (st, nvs)
  let st ← flashErase (nvs.bankAddr 1)
  if st ≠ .ok then return (st, nvs)
  let st ← flashWrite (nvs.bankAddr 0) (activeHdr 1).bytes
  if st ≠ .ok then return (st, nvs)
  return (.ok, { nvs with activeBank := 0, writeOffset := sectorHdrSize, sequence := 1 })

/-- `valid0` and `valid1` of `fw_nvs_init`. -/
def SectorHdr.valid (hdr : SectorHdr) : Bool :=
  hdr.magic == fwNvsMagic && hdr.state == fwNvsSectorActive

/-- The choice of the active bank in `fw_nvs_init` when at least one bank is valid.
The status of the recovery erase is ignored, as in the source. -/
def recoverBank (nvs : FwNvs) (hdr0 hdr1 : SectorHdr) : FlashM FwNvs :=
  if hdr0.valid && !hdr1.valid then
    return { nvs with activeBank := 0, sequence := hdr0.sequence }
  else if !hdr0.valid && hdr1.valid then
    return { nvs with activeBank := 1, sequence := hdr1.sequence }
  else if hdr1.sequence > hdr0.sequence then do
    let _ ← flashErase (nvs.bankAddr 0)
    return { nvs with activeBank := 1, sequence := hdr1.sequence }
  else do
    let _ ← flashErase (nvs.bankAddr 1)
    return { nvs with activeBank := 0, sequence := hdr0.sequence }

def fwNvsInit (T : Target) (nvs : FwNvs) (flash : FwFlashDriver) (bank0Addr bank1Addr : Nat) :
    FlashM (FwStatus × FwNvs) := do
  if flash.sectorSize < 256 then return (.errInvalidArg, nvs)
  let nvs := { nvs with flash := flash, bankAddr := ![bank0Addr, bank1Addr] }
  let (st, buf0) ← flashRead bank0Addr sectorHdrSize
  if st ≠ .ok then return (st, nvs)
  let (st, buf1) ← flashRead bank1Addr sectorHdrSize
  if st ≠ .ok then return (st, nvs)
  let hdr0 := SectorHdr.ofBytes buf0
  let hdr1 := SectorHdr.ofBytes buf1
  if !hdr0.valid && !hdr1.valid then fwNvsFormat nvs
  else do
    let nvs ← recoverBank nvs hdr0 hdr1
    let nvs ← scanWriteOffset T nvs
    return (.ok, nvs)

/-- The inner scan of `nvs_compact`: is there no later record of `key`? -/
def isLatestLoop (nvs : FwNvs) (srcBase : Nat) (key : UInt16) : Nat → Nat → FlashM Bool
  | 0, _ => .stuck
  | fuel + 1, scanOff =>
      if scanOff < nvs.writeOffset then do
        let (st, buf) ← flashRead (u32 (srcBase + scanOff)) recordHdrSize
        if st ≠ .ok then return true
        let nextHdr := RecordHdr.ofBytes buf
        if nextHdr.key = fwNvsKeyEmpty then return true
        if nextHdr.key = key then return false
        isLatestLoop nvs srcBase key fuel (u32 (scanOff + recTotal nextHdr))
      else return true

/-- `sizeof(copy_buf)`. -/
def copyBufSize : Nat := 128

/-- The copy of one record in chunks of at most `copyBufSize` bytes. -/
def copyLoop : Nat → Nat → Nat → Nat → FlashM FwStatus
  | 0, _, _, _ => .stuck
  | fuel + 1, chunkSrc, chunkDst, bytesToCopy =>
      if bytesToCopy > 0 then do
        let chunk := if bytesToCopy > copyBufSize then copyBufSize else bytesToCopy
        let (st, copyBuf) ← flashRead chunkSrc chunk
        if st ≠ .ok then return st
        let st ← flashWrite chunkDst copyBuf
        if st ≠ .ok then return st
        copyLoop fuel (u32 (chunkSrc + chunk)) (u32 (chunkDst + chunk)) (bytesToCopy - chunk)
      else return .ok

/-- The migration loop of `nvs_compact`. It gives the status to return early
with, or `ok`, and the final `dst_offset`. -/
def migrateLoop (nvs : FwNvs) (srcBase dstBase maxSize : Nat) :
    Nat → Nat → Nat → FlashM (FwStatus × Nat)
  | 0, _, _ => .stuck
  | fuel + 1, srcOffset, dstOffset =>
      if srcOffset < nvs.writeOffset then do
        let (st, buf) ← flashRead (u32 (srcBase + srcOffset)) recordHdrSize
        if st ≠ .ok then return (.ok, dstOffset)
        let curHdr := RecordHdr.ofBytes buf
        if curHdr.key = fwNvsKeyEmpty then return (.ok, dstOffset)
        let curTotal := recTotal curHdr
        let next := u32 (srcOffset + curTotal)
        if curHdr.status = fwNvsStatusValid then
          let isLatest ← isLatestLoop nvs srcBase curHdr.key loopFuel next
          if isLatest then
            if u32 (dstOffset + curTotal) > maxSize then return (.errOutOfMemory, dstOffset)
            let st ←
              copyLoop loopFuel (u32 (srcBase + srcOffset)) (u32 (dstBase + dstOffset)) curTotal
            if st ≠ .ok then return (st, dstOffset)
            migrateLoop nvs srcBase dstBase maxSize fuel next (u32 (dstOffset + curTotal))
          else migrateLoop nvs srcBase dstBase maxSize fuel next dstOffset
        else migrateLoop nvs srcBase dstBase maxSize fuel next dstOffset
      else return (.ok, dstOffset)

def nvsCompact (nvs : FwNvs) : FlashM (FwStatus × FwNvs) := do
  let altBank := 1 - nvs.activeBank
  let srcBase := nvs.bankAddr nvs.activeBank
  let dstBase := nvs.bankAddr altBank
  let maxSize := nvs.flash.sectorSize
  let st ← flashErase dstBase
  if st ≠ .ok then return (st, nvs)
  let nextSeq := nvs.sequence + 1
  let st ← flashWrite dstBase (activeHdr nextSeq).bytes
  if st ≠ .ok then return (st, nvs)
  let (st, dstOffset) ← migrateLoop nvs srcBase dstBase maxSize loopFuel sectorHdrSize sectorHdrSize
  if st ≠ .ok then return (st, nvs)
  let st ← flashErase srcBase
  if st ≠ .ok then return (st, nvs)
  return (.ok, { nvs with activeBank := altBank, writeOffset := dstOffset, sequence := nextSeq })

/-- The payload and padding writes of `fw_nvs_write`. -/
def writePayload (addr : Nat) (data : List UInt8) (payloadLen alignedPayload : Nat) :
    FlashM FwStatus := do
  if payloadLen > 0 then
    let st ← flashWrite (u32 (addr + recordHdrSize)) (data.take payloadLen)
    if st ≠ .ok then return st
    if alignedPayload > payloadLen then
      flashWrite (u32 (addr + recordHdrSize + payloadLen))
        (List.replicate (alignedPayload - payloadLen) 0xFF)
    else return .ok
  else return .ok

/-- The part of `fw_nvs_write` after the space checks. -/
def appendRecord (nvs : FwNvs) (key : UInt16) (data : List UInt8) : FlashM (FwStatus × FwNvs) := do
  let payloadLen := u32 data.length
  let alignedPayload := alignUp4 payloadLen
  let total := u32 (recordHdrSize + alignedPayload)
  let length := UInt16.ofNat payloadLen
  let hdr : RecordHdr :=
    { key := key, length := length, crc16 := calcRecordCrc key length data,
      status := fwNvsStatusValid }
  let addr := u32 (nvs.bankAddr nvs.activeBank + nvs.writeOffset)
  let st ← flashWrite addr hdr.bytes
  if st ≠ .ok then return (st, nvs)
  let st ← writePayload addr data payloadLen alignedPayload
  if st ≠ .ok then return (st, nvs)
  return (.ok, { nvs with writeOffset := u32 (nvs.writeOffset + total) })

def fwNvsWrite (T : Target) (nvs : FwNvs) (key : UInt16) (data : List UInt8) :
    FlashM (FwStatus × FwNvs) := do
  if key = fwNvsKeyEmpty then return (.errInvalidArg, nvs)
  let total := u32 (recordHdrSize + alignUp4 (u32 data.length))
  if T.size (sectorHdrSize + total) > nvs.flash.sectorSize then return (.errOutOfMemory, nvs)
  if u32 (nvs.writeOffset + total) > nvs.flash.sectorSize then
    let (st, nvs) ← nvsCompact nvs
    if st ≠ .ok then return (st, nvs)
    if u32 (nvs.writeOffset + total) > nvs.flash.sectorSize then return (.errOutOfMemory, nvs)
    appendRecord nvs key data
  else appendRecord nvs key data

/-- The variables of the lookup loop of `fw_nvs_read`. -/
structure Match where
  found : Bool
  matchOffset : Nat
  matchHdr : RecordHdr
  deriving DecidableEq, Repr

/-- The variables before the loop; the header is zeroed by `memset`. -/
def Match.initial : Match := ⟨false, 0, ⟨0, 0, 0, 0⟩⟩

/-- What one record header does to the lookup of `key`. -/
def Match.update (mt : Match) (key : UInt16) (offset : Nat) (hdr : RecordHdr) : Match :=
  if hdr.key = key then
    if hdr.status = fwNvsStatusValid then ⟨true, offset, hdr⟩ else { mt with found := false }
  else mt

/-- The lookup loop of `fw_nvs_read`. -/
def lookupLoop (nvs : FwNvs) (base : Nat) (key : UInt16) : Nat → Nat → Match → FlashM Match
  | 0, _, _ => .stuck
  | fuel + 1, offset, mt =>
      if offset < nvs.writeOffset then do
        let (st, buf) ← flashRead (u32 (base + offset)) recordHdrSize
        if st ≠ .ok then return mt
        let hdr := RecordHdr.ofBytes buf
        if hdr.key = fwNvsKeyEmpty then return mt
        lookupLoop nvs base key fuel (u32 (offset + recTotal hdr)) (mt.update key offset hdr)
      else return mt

/-- The status of `fw_nvs_read`, the caller's buffer and the value stored in `*out_len`. -/
structure ReadResult where
  status : FwStatus
  outData : List UInt8
  outLen : Option Nat
  deriving DecidableEq, Repr

/-- The payload read of `fw_nvs_read`: the bytes land at the start of the caller's buffer. -/
def readPayload (addr length : Nat) (outData : List UInt8) : FlashM (FwStatus × List UInt8) := do
  if length > 0 then
    let (st, buf) ← flashRead addr length
    return (st, buf ++ outData.drop buf.length)
  else return (.ok, outData)

def fwNvsRead (nvs : FwNvs) (key : UInt16) (outData : List UInt8) : FlashM ReadResult := do
  if key = fwNvsKeyEmpty then return ⟨.errInvalidArg, outData, none⟩
  let base := nvs.bankAddr nvs.activeBank
  let mt ← lookupLoop nvs base key loopFuel sectorHdrSize Match.initial
  if !mt.found then return ⟨.errNotFound, outData, none⟩
  let length := mt.matchHdr.length.toNat
  if outData.length < length then return ⟨.errBufferOverflow, outData, none⟩
  let (st, outData) ← readPayload (u32 (base + mt.matchOffset + recordHdrSize)) length outData
  if st ≠ .ok then return ⟨st, outData, none⟩
  if calcRecordCrc key mt.matchHdr.length outData ≠ mt.matchHdr.crc16 then
    return ⟨.errCorrupted, outData, none⟩
  return ⟨.ok, outData, some length⟩

def fwNvsDelete (nvs : FwNvs) (key : UInt16) : FlashM (FwStatus × FwNvs) := do
  if key = fwNvsKeyEmpty then return (.errInvalidArg, nvs)
  -- `dummy` is one byte whose initial value does not reach the status
  let res ← fwNvsRead nvs key [0]
  if res.status = .errNotFound then return (.errNotFound, nvs)
  let total := recordHdrSize
  let (st, nvs) ←
    if u32 (nvs.writeOffset + total) > nvs.flash.sectorSize then nvsCompact nvs
    else pure (.ok, nvs)
  if st ≠ .ok then return (st, nvs)
  let hdr : RecordHdr :=
    { key := key, length := 0, crc16 := calcRecordCrc key 0 [], status := fwNvsStatusDead }
  let base := nvs.bankAddr nvs.activeBank
  let st ← flashWrite (u32 (base + nvs.writeOffset)) hdr.bytes
  if st ≠ .ok then return (st, nvs)
  return (.ok, { nvs with writeOffset := u32 (nvs.writeOffset + total) })

end ZeroEmbedded.Nvs
