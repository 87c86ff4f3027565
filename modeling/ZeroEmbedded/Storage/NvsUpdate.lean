import ZeroEmbedded.Storage.NvsAppend

/-!
# Writing and deleting keys

A log determines the value of every key. `Mounted` relates an instance, the
flash and the log, and each operation of a mounted instance leaves a mounted
instance whose log has the expected values.
-/

namespace ZeroEmbedded.Nvs

open Foundation

/-- A value record as `fw_nvs_write` leaves it. -/
structure NvsRecord.Complete (r : NvsRecord) : Prop where
  intact : r.intact
  padding : ∃ n, r.body = r.payload ++ List.replicate n 0xFF

/-- Every value record of the log is complete. -/
def Sound (log : List NvsRecord) : Prop := ∀ r ∈ log, r.valid = true → r.Complete

/-- The value of a key: the payload of its last record, unless that is a tombstone. -/
def valueOf (log : List NvsRecord) (key : UInt16) : Option (List UInt8) :=
  ((KeyedLog.latest NvsRecord.key key log).filter NvsRecord.valid).map NvsRecord.payload

/-- What `fw_nvs_read` returns for a key with this value. -/
def readValue (value : Option (List UInt8)) (outData : List UInt8) : ReadResult :=
  match value with
  | none => ⟨.errNotFound, outData, none⟩
  | some v =>
      if outData.length < v.length then ⟨.errBufferOverflow, outData, none⟩
      else ⟨.ok, v ++ outData.drop v.length, some v.length⟩

/-- The records that a compaction keeps. -/
abbrev live (log : List NvsRecord) : List NvsRecord :=
  KeyedLog.survivors NvsRecord.key NvsRecord.valid log

section Values

variable {log : List NvsRecord} {key : UInt16} {data : List UInt8}

theorem Sound.sublist {log' : List NvsRecord} (h : Sound log) (hs : log'.Sublist log) :
    Sound log' := fun r hr => h r (hs.subset hr)

theorem Sound.append (h : Sound log) {r : NvsRecord} (hr : r.valid = true → r.Complete) :
    Sound (log ++ [r]) := by
  intro x hx
  rcases List.mem_append.mp hx with hx | hx
  · exact h x hx
  · rw [List.mem_singleton.mp hx]
    exact hr

theorem valueRecord_complete (hkey : key ≠ fwNvsKeyEmpty) (hlen : data.length < 2 ^ 16) :
    (valueRecord key data hkey hlen).Complete :=
  ⟨valueRecord_intact hkey hlen, padLength data, by rw [valueRecord_payload]; rfl⟩

theorem readRecord_of_intact {r : NvsRecord} (h : r.intact) (outData : List UInt8) :
    readRecord r outData = readValue (some r.payload) outData := by
  simp only [readRecord, readValue, r.payload_length]
  by_cases hbuf : outData.length < r.length
  · rw [if_pos hbuf, if_pos hbuf]
  · rw [if_neg hbuf, if_neg hbuf, if_neg (not_not.mpr h.symm)]

/-- Reads of a sound log never find a wrong checksum. -/
theorem readLog_of_sound (h : Sound log) (key : UInt16) (outData : List UInt8) :
    readLog log key outData = readValue (valueOf log key) outData := by
  rw [readLog, valueOf]
  cases hl : (KeyedLog.latest NvsRecord.key key log).filter NvsRecord.valid with
  | none => rfl
  | some r =>
      obtain ⟨hlast, hv⟩ := Option.filter_eq_some_iff.mp hl
      exact readRecord_of_intact (h r (KeyedLog.latest_mem NvsRecord.key hlast).1 hv).intact outData

/-- Compaction keeps the value of every key. -/
theorem valueOf_live (log : List NvsRecord) : valueOf (live log) = valueOf log := by
  funext k
  rw [valueOf, valueOf, KeyedLog.latest_survivors]
  cases KeyedLog.latest NvsRecord.key k log with
  | none => rfl
  | some r => cases hv : r.valid <;> simp [Option.filter, hv]

theorem valueOf_append (log : List NvsRecord) (r : NvsRecord) :
    valueOf (log ++ [r]) =
      Function.update (valueOf log) r.key (if r.valid = true then some r.payload else none) := by
  funext k
  rw [valueOf, KeyedLog.latest_concat]
  by_cases hk : r.key = k
  · subst hk
    rw [if_pos rfl, Function.update_self]
    cases hv : r.valid <;> simp [Option.filter, hv]
  · rw [if_neg hk, Function.update_of_ne (Ne.symm hk)]
    rfl

theorem valueOf_append_value (log : List NvsRecord) (hkey : key ≠ fwNvsKeyEmpty)
    (hlen : data.length < 2 ^ 16) :
    valueOf (log ++ [valueRecord key data hkey hlen]) =
      Function.update (valueOf log) key (some data) := by
  rw [valueOf_append, if_pos (valueRecord_valid hkey hlen), valueRecord_payload]
  rfl

theorem valueOf_append_tombstone (log : List NvsRecord) (hkey : key ≠ fwNvsKeyEmpty) :
    valueOf (log ++ [tombstone key hkey]) = Function.update (valueOf log) key none := by
  have hv : (tombstone key hkey).valid = false := by
    simp [tombstone, NvsRecord.valid, tombstoneHdr, fwNvsStatusDead, fwNvsStatusValid]
  rw [valueOf_append, hv, if_neg Bool.false_ne_true]
  rfl

end Values

/-- The instance is mounted on a flash whose active bank holds this sound log. -/
structure Mounted (L : BankLayout) (nvs : FwNvs) (m : Memory) (log : List NvsRecord) : Prop where
  nvs_eq : nvs = ram L nvs.activeBank nvs.sequence log
  flash : OnFlash L m nvs.activeBank nvs.sequence log
  sound : Sound log

theorem OnFlash.mounted {L : BankLayout} {m : Memory} {b : Fin 2} {seq : UInt32}
    {log : List NvsRecord} (h : OnFlash L m b seq log) (hs : Sound log) :
    Mounted L (ram L b seq log) m log :=
  ⟨rfl, h, hs⟩

theorem Mounted.writeOffset_le {L : BankLayout} {nvs : FwNvs} {m : Memory} {log : List NvsRecord}
    (h : Mounted L nvs m log) : nvs.writeOffset ≤ L.sectorSize := by
  rw [h.nvs_eq, ram_writeOffset]
  exact h.flash.active.fits

section Compact

variable {L : BankLayout} {m : Memory} {b : Fin 2} {seq : UInt32} {log : List NvsRecord}

/-- The flash after the compaction of bank `b`. -/
def compacted (L : BankLayout) (m : Memory) (b : Fin 2) (seq : UInt32) (log : List NvsRecord) :
    Memory :=
  (copyImage L m b seq (logChunks (live log))).erase (L.addr b) L.sectorSize

theorem live_fits (h : BankLog L m b seq log) :
    sectorHdrSize + (logChunks (live log)).flatten.length ≤ L.sectorSize :=
  kept_fits h (KeyedLog.survivors_sublist _ _ log)

/-- Compaction of a mounted bank keeps the live records. -/
theorem nvsCompact_ram_yields (h : BankLog L m b seq log) :
    FlashYields L.sectorSize m (nvsCompact (ram L b seq log)) (compactEffects L b seq (live log))
      (.ok, ram L (1 - b) (seq + 1) (live log)) (compacted L m b seq log) := by
  have hend : ∀ m', SameOutside L (1 - b) (copyImage L m b seq []) m' →
      WalkEnd (ram L b seq log) m' (L.addr b) (sectorHdrSize + logSize log) none := fun _ _ => rfl
  have hrun := nvsCompact_yields h rfl rfl rfl rfl hend
  rw [keptRecords_none] at hrun
  exact hrun

theorem compacted_onFlash (h : BankLog L m b seq log) :
    OnFlash L (compacted L m b seq log) (1 - b) (seq + 1) (live log) :=
  copyImage_erase_onFlash m (live_fits h)

end Compact

section Write

variable {L : BankLayout} {m : Memory} {b : Fin 2} {seq : UInt32} {log : List NvsRecord}
  {key : UInt16} {data : List UInt8}

/-- `rec_total` of `fw_nvs_write`. -/
def writeTotal (data : List UInt8) : Nat := u32 (recordHdrSize + alignUp4 (u32 data.length))

/-- `fw_nvs_write` turns the payload down before it calls the driver. -/
def WriteRefused (T : Target) (L : BankLayout) (data : List UInt8) : Prop :=
  T.size (sectorHdrSize + writeTotal data) > L.sectorSize

instance (T : Target) (L : BankLayout) (data : List UInt8) : Decidable (WriteRefused T L data) :=
  inferInstanceAs (Decidable (_ > _))

/-- The total size of the record of a payload. -/
theorem writeTotal_eq (hlen : data.length < 2 ^ 16) :
    writeTotal data = 8 + alignUp4 data.length := by
  have halign := alignUp4_eq (by omega : data.length < 2 ^ 17)
  rw [writeTotal, u32_of_lt (by omega : data.length < 2 ^ 32), recordHdrSize]
  exact u32_of_lt (by omega)

/-- A value is turned down when its record does not fit into an empty bank. -/
theorem writeRefused_iff (T : Target) (hlen : data.length < 2 ^ 16) :
    WriteRefused T L data ↔ L.sectorSize < sectorHdrSize + (8 + alignUp4 data.length) := by
  have halign := alignUp4_eq (by omega : data.length < 2 ^ 17)
  rw [WriteRefused, writeTotal_eq hlen, T.size_of_lt (by rw [sectorHdrSize]; omega)]

/-- The space checks of `fw_nvs_write` for a key in use. -/
theorem fwNvsWrite_eq (T : Target) {nvs : FwNvs} (hS : nvs.flash = ⟨L.sectorSize⟩)
    (hkey : key ≠ fwNvsKeyEmpty) :
    fwNvsWrite T nvs key data =
      if WriteRefused T L data then pure (.errOutOfMemory, nvs)
      else if u32 (nvs.writeOffset + writeTotal data) > L.sectorSize then do
        let (st, nvs) ← nvsCompact nvs
        if st ≠ .ok then return (st, nvs)
        if u32 (nvs.writeOffset + writeTotal data) > nvs.flash.sectorSize then
          return (.errOutOfMemory, nvs)
        appendRecord nvs key data
      else appendRecord nvs key data := by
  rw [fwNvsWrite, if_neg hkey, hS]
  rfl

/-- `fw_nvs_write` refuses a value that does not fit into an empty bank. -/
theorem fwNvsWrite_refused (T : Target) {nvs : FwNvs} (hS : nvs.flash = ⟨L.sectorSize⟩) (m : Memory)
    (hkey : key ≠ fwNvsKeyEmpty) (hrefused : WriteRefused T L data) :
    FlashYields L.sectorSize m (fwNvsWrite T nvs key data) [] (.errOutOfMemory, nvs) m := by
  rw [fwNvsWrite_eq T hS hkey, if_pos hrefused]
  exact Program.Yields.ret _ _

/-- With room behind the log `fw_nvs_write` appends without a compaction. -/
theorem fwNvsWrite_room (T : Target) (hkey : key ≠ fwNvsKeyEmpty) (hfits : ¬ WriteRefused T L data)
    (hroom : u32 (sectorHdrSize + logSize log + writeTotal data) ≤ L.sectorSize) :
    fwNvsWrite T (ram L b seq log) key data = appendRecord (ram L b seq log) key data := by
  rw [fwNvsWrite_eq T (L := L) rfl hkey, if_neg hfits]
  exact if_neg (Nat.not_lt.mpr hroom)

/-- Without room behind the log `fw_nvs_write` compacts first and then tries again. -/
theorem fwNvsWrite_full (T : Target) (h : BankLog L m b seq log) (hkey : key ≠ fwNvsKeyEmpty)
    (hfits : ¬ WriteRefused T L data)
    (hroom : L.sectorSize < u32 (sectorHdrSize + logSize log + writeTotal data))
    {cs : List FlashCall} {a : FwStatus × FwNvs} {m' : Memory}
    (hrest : FlashYields L.sectorSize (compacted L m b seq log)
      (if u32 (sectorHdrSize + logSize (live log) + writeTotal data) > L.sectorSize then
        pure (.errOutOfMemory, ram L (1 - b) (seq + 1) (live log))
      else appendRecord (ram L (1 - b) (seq + 1) (live log)) key data) cs a m') :
    FlashYields L.sectorSize m (fwNvsWrite T (ram L b seq log) key data)
      (compactEffects L b seq (live log) ++ cs) a m' := by
  rw [fwNvsWrite_eq T (L := L) rfl hkey, if_neg hfits, ram_writeOffset, if_pos hroom]
  refine Program.Yields.bind (nvsCompact_ram_yields h) ?_
  simp only [ne_eq, not_true_eq_false, if_false]
  exact hrest

/-- The write offset does not wrap around while a value that fits is added. -/
theorem writeOffset_eq (hlen : data.length < 2 ^ 16)
    (hfit : sectorHdrSize + logSize log ≤ L.sectorSize) :
    u32 (sectorHdrSize + logSize log + writeTotal data) =
      sectorHdrSize + logSize log + (8 + alignUp4 data.length) := by
  have hsz := L.sectorSize_le
  have halign := alignUp4_eq (by omega : data.length < 2 ^ 17)
  rw [writeTotal_eq hlen, u32_of_lt (by omega)]

/-- A value that fits behind the log is appended. -/
theorem fwNvsWrite_append (T : Target) (hkey : key ≠ fwNvsKeyEmpty) (hlen : data.length < 2 ^ 16)
    (hroom : sectorHdrSize + logSize log + (8 + alignUp4 data.length) ≤ L.sectorSize) :
    FlashYields L.sectorSize m (fwNvsWrite T (ram L b seq log) key data)
      (writesFrom (L.addr b + (sectorHdrSize + logSize log)) (valueChunks key data))
      (.ok, ram L b seq (log ++ [valueRecord key data hkey hlen]))
      (m.programAll (L.addr b + (sectorHdrSize + logSize log)) (valueChunks key data)) := by
  have hfits : ¬ WriteRefused T L data := by
    rw [writeRefused_iff T hlen]
    omega
  have hfit : sectorHdrSize + logSize log ≤ L.sectorSize := by omega
  rw [fwNvsWrite_room T hkey hfits (by rw [writeOffset_eq hlen hfit]; exact hroom)]
  exact appendRecord_yields hkey hlen hroom

/-- A value that fits into an empty bank, but not behind the log, is appended after a compaction
if there is room then. -/
theorem fwNvsWrite_compacts (T : Target) (h : BankLog L m b seq log)
    (hkey : key ≠ fwNvsKeyEmpty) (hlen : data.length < 2 ^ 16)
    (hfits : sectorHdrSize + (8 + alignUp4 data.length) ≤ L.sectorSize)
    (hroom : L.sectorSize < sectorHdrSize + logSize log + (8 + alignUp4 data.length))
    {cs : List FlashCall} {a : FwStatus × FwNvs} {m' : Memory}
    (hrest : FlashYields L.sectorSize (compacted L m b seq log)
      (if sectorHdrSize + logSize (live log) + (8 + alignUp4 data.length) > L.sectorSize then
        pure (.errOutOfMemory, ram L (1 - b) (seq + 1) (live log))
      else appendRecord (ram L (1 - b) (seq + 1) (live log)) key data) cs a m') :
    FlashYields L.sectorSize m (fwNvsWrite T (ram L b seq log) key data)
      (compactEffects L b seq (live log) ++ cs) a m' := by
  have hfit' := live_fits h
  rw [logChunks_flatten, logBytes_length] at hfit'
  refine fwNvsWrite_full T h hkey ?_ ?_ ?_
  · rw [writeRefused_iff T hlen]
    omega
  · rw [writeOffset_eq hlen h.fits]
    exact hroom
  · rw [writeOffset_eq hlen hfit']
    exact hrest

/-- `fw_nvs_write` of a mounted instance stores the value or reports that it could not. -/
theorem Mounted.write (T : Target) {nvs : FwNvs} (h : Mounted L nvs m log)
    (hkey : key ≠ fwNvsKeyEmpty) (hlen : data.length < 2 ^ 16) :
    ∃ cs st nvs' m' log', FlashYields L.sectorSize m (fwNvsWrite T nvs key data) cs (st, nvs') m' ∧
      Mounted L nvs' m' log' ∧
      valueOf log' = if st = .ok then Function.update (valueOf log) key (some data)
        else valueOf log := by
  obtain ⟨hnvs, hflash, hsound⟩ := h
  generalize nvs.activeBank = b at hnvs hflash
  generalize nvs.sequence = seq at hnvs hflash
  subst hnvs
  have hlive : Sound (live log) := hsound.sublist (KeyedLog.survivors_sublist _ _ log)
  have hdone := fun _ : (valueRecord key data hkey hlen).valid = true =>
    valueRecord_complete hkey hlen
  have hchunks := valueChunks_flatten hkey hlen
  have hsize := valueRecord_size hkey hlen
  by_cases hfits : sectorHdrSize + (8 + alignUp4 data.length) ≤ L.sectorSize
  · by_cases hroom : sectorHdrSize + logSize log + (8 + alignUp4 data.length) ≤ L.sectorSize
    · exact ⟨_, _, _, _, _, fwNvsWrite_append T hkey hlen hroom,
        (hflash.append hchunks (by omega)).mounted (hsound.append hdone),
        valueOf_append_value log hkey hlen⟩
    · have hcomp := compacted_onFlash hflash.active.bankLog
      by_cases hroom' : sectorHdrSize + logSize (live log) + (8 + alignUp4 data.length) ≤
          L.sectorSize
      · have hrun := fwNvsWrite_compacts T hflash.active.bankLog hkey hlen hfits (by omega)
          (by rw [if_neg (Nat.not_lt.mpr hroom')]; exact appendRecord_yields hkey hlen hroom')
        refine ⟨_, .ok, _, _, _, hrun,
          (hcomp.append hchunks (by omega)).mounted (hlive.append hdone), ?_⟩
        rw [valueOf_append_value, valueOf_live]
        rfl
      · have hrun := fwNvsWrite_compacts T hflash.active.bankLog hkey hlen hfits (by omega)
          (by rw [if_pos (by omega)]; exact Program.Yields.ret _ _)
        exact ⟨_, .errOutOfMemory, _, _, _, hrun, hcomp.mounted hlive, valueOf_live log⟩
  · exact ⟨[], .errOutOfMemory, _, _, _,
      fwNvsWrite_refused T rfl m hkey ((writeRefused_iff T hlen).mpr (by omega)),
      hflash.mounted hsound, rfl⟩

end Write

section Delete

variable {L : BankLayout} {m : Memory} {b : Fin 2} {seq : UInt32} {log : List NvsRecord}
  {key : UInt16}

/-- There is room for a tombstone behind the log, or behind its live records. -/
def TombstoneFits (L : BankLayout) (log : List NvsRecord) : Prop :=
  sectorHdrSize + logSize log + recordHdrSize ≤ L.sectorSize ∨
    sectorHdrSize + logSize (live log) + recordHdrSize ≤ L.sectorSize

instance (L : BankLayout) (log : List NvsRecord) : Decidable (TombstoneFits L log) :=
  inferInstanceAs (Decidable (_ ∨ _))

theorem readValue_status (value : Option (List UInt8)) (outData : List UInt8) :
    (readValue value outData).status = .errNotFound ↔ value = none := by
  cases value with
  | none => simp [readValue]
  | some v =>
      simp only [readValue, reduceCtorEq, iff_false]
      split <;> simp

/-- `fw_nvs_delete` of a key without a value changes nothing. -/
theorem fwNvsDelete_missing (h : ActiveBank L m b seq log) (hs : Sound log)
    (hkey : key ≠ fwNvsKeyEmpty) (hmiss : valueOf log key = none) :
    FlashYields L.sectorSize m (fwNvsDelete (ram L b seq log) key) []
      (.errNotFound, ram L b seq log) m := by
  have hread := fwNvsRead_yields h.bankLog hkey [0]
  rw [readLog_of_sound hs, hmiss] at hread
  rw [fwNvsDelete, if_neg hkey]
  exact hread.observing_bind (Program.Yields.ret _ _)

/-- `fw_nvs_delete` of a key with a value programs a tombstone where the bank ends that it has, or
that a compaction gives it. -/
theorem fwNvsDelete_found (h : ActiveBank L m b seq log) (hs : Sound log)
    (hkey : key ≠ fwNvsKeyEmpty) (hval : valueOf log key ≠ none) {cs : List FlashCall} {nvs : FwNvs}
    {m' : Memory}
    (hcompact : FlashYields L.sectorSize m
      (if sectorHdrSize + logSize log + recordHdrSize > L.sectorSize then
        nvsCompact (ram L b seq log) else pure (.ok, ram L b seq log)) cs (.ok, nvs) m') :
    FlashYields L.sectorSize m (fwNvsDelete (ram L b seq log) key)
      (cs ++ [.write (u32 (nvs.bankAddr nvs.activeBank + nvs.writeOffset)) (tombstoneHdr key).bytes])
      (.ok, { nvs with writeOffset := u32 (nvs.writeOffset + recordHdrSize) })
      (m'.program (u32 (nvs.bankAddr nvs.activeBank + nvs.writeOffset))
        (tombstoneHdr key).bytes) := by
  have hsz := L.sectorSize_le
  have hfit := h.fits
  have hhdr : recordHdrSize = 8 := rfl
  have hread := fwNvsRead_yields h.bankLog hkey [0]
  rw [readLog_of_sound hs] at hread
  have hfound : ¬ (readValue (valueOf log key) [0]).status = .errNotFound := fun hst =>
    hval ((readValue_status _ _).mp hst)
  have hoff : u32 ((ram L b seq log).writeOffset + recordHdrSize) =
      sectorHdrSize + logSize log + recordHdrSize := by
    rw [ram_writeOffset, u32_of_lt (by omega)]
  rw [fwNvsDelete, if_neg hkey]
  refine hread.observing_bind ?_
  simp only [if_neg hfound, hoff, ram_sectorSize]
  by_cases hroom : sectorHdrSize + logSize log + recordHdrSize > L.sectorSize
  · rw [if_pos hroom] at hcompact ⊢
    refine Program.Yields.bind hcompact ?_
    simp only [ne_eq, not_true_eq_false, if_false]
    exact FlashYields.write (Program.Yields.ret _ _)
  · rw [if_neg hroom] at hcompact ⊢
    refine Program.Yields.bind hcompact ?_
    simp only [ne_eq, not_true_eq_false, if_false]
    exact FlashYields.write (Program.Yields.ret _ _)

/-- With a value and room behind the log `fw_nvs_delete` appends a tombstone. -/
theorem fwNvsDelete_append (h : ActiveBank L m b seq log) (hs : Sound log)
    (hkey : key ≠ fwNvsKeyEmpty) (hval : valueOf log key ≠ none)
    (hroom : sectorHdrSize + logSize log + recordHdrSize ≤ L.sectorSize) :
    FlashYields L.sectorSize m (fwNvsDelete (ram L b seq log) key)
      [.write (L.addr b + (sectorHdrSize + logSize log)) (tombstoneHdr key).bytes]
      (.ok, ram L b seq (log ++ [tombstone key hkey]))
      (m.program (L.addr b + (sectorHdrSize + logSize log)) (tombstoneHdr key).bytes) := by
  have hsz := L.sectorSize_le
  have hS := L.addr_le b
  have haddr : u32 (L.addr b + (sectorHdrSize + logSize log)) =
      L.addr b + (sectorHdrSize + logSize log) := u32_of_lt (by rw [recordHdrSize] at hroom; omega)
  have hnext : u32 (sectorHdrSize + logSize log + recordHdrSize) =
      sectorHdrSize + logSize (log ++ [tombstone key hkey]) := by
    rw [u32_of_lt (by omega), logSize_append, logSize_cons, tombstone_size, logSize_nil,
      recordHdrSize]
    omega
  have hstays : FlashYields L.sectorSize m
      (if sectorHdrSize + logSize log + recordHdrSize > L.sectorSize then
        nvsCompact (ram L b seq log) else pure (.ok, ram L b seq log)) []
      (.ok, ram L b seq log) m := by
    rw [if_neg (Nat.not_lt.mpr hroom)]
    exact Program.Yields.ret _ _
  have hrun := fwNvsDelete_found h hs hkey hval hstays
  rw [ram_bankAddr, ram_activeBank, ram_writeOffset, haddr, hnext] at hrun
  exact hrun

/-- Without room behind the log `fw_nvs_delete` compacts and then programs the
tombstone, whether or not it fits. -/
theorem fwNvsDelete_compacts (h : ActiveBank L m b seq log) (hs : Sound log)
    (hkey : key ≠ fwNvsKeyEmpty) (hval : valueOf log key ≠ none)
    (hroom : L.sectorSize < sectorHdrSize + logSize log + recordHdrSize) :
    FlashYields L.sectorSize m (fwNvsDelete (ram L b seq log) key)
      (compactEffects L b seq (live log) ++
        [.write (u32 (L.addr (1 - b) + (sectorHdrSize + logSize (live log))))
          (tombstoneHdr key).bytes])
      (.ok, { ram L (1 - b) (seq + 1) (live log) with
        writeOffset := sectorHdrSize + logSize (live log) + recordHdrSize })
      ((compacted L m b seq log).program
        (u32 (L.addr (1 - b) + (sectorHdrSize + logSize (live log))))
          (tombstoneHdr key).bytes) := by
  have hsz := L.sectorSize_le
  have hfit := live_fits h.bankLog
  rw [logChunks_flatten, logBytes_length] at hfit
  have hhdr : recordHdrSize = 8 := rfl
  have hnext : u32 (sectorHdrSize + logSize (live log) + recordHdrSize) =
      sectorHdrSize + logSize (live log) + recordHdrSize := u32_of_lt (by omega)
  have hrun := fwNvsDelete_found h hs hkey hval (by
    rw [if_pos hroom]
    exact nvsCompact_ram_yields h.bankLog)
  rw [ram_bankAddr, ram_activeBank, ram_writeOffset, hnext] at hrun
  exact hrun

/-- The last call of a successful delete programs the tombstone right before the
write offset of the active bank. -/
def EndsWithTombstone (L : BankLayout) (key : UInt16) (cs : List FlashCall) (nvs : FwNvs) : Prop :=
  ∃ pre off, cs = pre ++ [.write (L.addr nvs.activeBank + off) (tombstoneHdr key).bytes] ∧
    sectorHdrSize ≤ off ∧ nvs.writeOffset = off + recordHdrSize

/-- When the tombstone fits, `fw_nvs_delete` of a mounted instance removes the value. -/
theorem Mounted.delete {nvs : FwNvs} (h : Mounted L nvs m log) (hkey : key ≠ fwNvsKeyEmpty)
    (hval : valueOf log key ≠ none) (hfits : TombstoneFits L log) :
    ∃ cs nvs' m' log', FlashYields L.sectorSize m (fwNvsDelete nvs key) cs (.ok, nvs') m' ∧
      Mounted L nvs' m' log' ∧ valueOf log' = Function.update (valueOf log) key none ∧
      EndsWithTombstone L key cs nvs' := by
  obtain ⟨hnvs, hflash, hsound⟩ := h
  generalize nvs.activeBank = b at hnvs hflash
  generalize nvs.sequence = seq at hnvs hflash
  subst hnvs
  have hlive : Sound (live log) := hsound.sublist (KeyedLog.survivors_sublist _ _ log)
  have hdead : ∀ hv : (tombstone key hkey).valid = true, (tombstone key hkey).Complete := by
    intro hv
    simp [tombstone, NvsRecord.valid, tombstoneHdr, fwNvsStatusDead, fwNvsStatusValid] at hv
  have hchunks : [(tombstoneHdr key).bytes].flatten = (tombstone key hkey).bytes := rfl
  have hsize := tombstone_size hkey
  have hhdr : recordHdrSize = 8 := rfl
  by_cases hroom : sectorHdrSize + logSize log + recordHdrSize ≤ L.sectorSize
  · refine ⟨_, _, _, _, fwNvsDelete_append hflash.active hsound hkey hval hroom,
      (hflash.append hchunks (by omega)).mounted (hsound.append hdead),
      valueOf_append_tombstone log hkey, [], _, rfl, Nat.le_add_right _ _, ?_⟩
    simp [hsize, hhdr, Nat.add_assoc]
  · have hroom' : sectorHdrSize + logSize (live log) + recordHdrSize ≤ L.sectorSize :=
      hfits.resolve_left hroom
    have hcomp := compacted_onFlash hflash.active.bankLog
    have hS := L.addr_le (1 - b)
    have haddr : u32 (L.addr (1 - b) + (sectorHdrSize + logSize (live log))) =
        L.addr (1 - b) + (sectorHdrSize + logSize (live log)) := u32_of_lt (by omega)
    have hrun := fwNvsDelete_compacts hflash.active hsound hkey hval (Nat.not_le.mp hroom)
    have hram : { ram L (1 - b) (seq + 1) (live log) with
        writeOffset := sectorHdrSize + logSize (live log) + recordHdrSize } =
        ram L (1 - b) (seq + 1) (live log ++ [tombstone key hkey]) := by
      simp [ram, hsize, hhdr, Nat.add_assoc]
    rw [haddr, hram] at hrun
    refine ⟨_, _, _, _, hrun, (hcomp.append hchunks (by omega)).mounted (hlive.append hdead), ?_,
      _, _, rfl, Nat.le_add_right _ _, ?_⟩
    · rw [valueOf_append_tombstone, valueOf_live]
    · simp [hsize, hhdr, Nat.add_assoc]

/-- `fw_nvs_read` of a mounted instance returns the value of the key. -/
theorem Mounted.read {nvs : FwNvs} (h : Mounted L nvs m log) (hkey : key ≠ fwNvsKeyEmpty)
    (outData : List UInt8) :
    FlashYields L.sectorSize m (fwNvsRead nvs key outData) [] (readValue (valueOf log key) outData)
      m := by
  have hread := fwNvsRead_yields h.flash.active.bankLog hkey outData
  rw [readLog_of_sound h.sound, ← h.nvs_eq] at hread
  exact hread

/-- A remount of a mounted flash gives the same instance again. -/
theorem Mounted.remount {nvs : FwNvs} (h : Mounted L nvs m log) (T : Target) (fresh : FwNvs) :
    FlashYields L.sectorSize m (fwNvsInit T fresh ⟨L.sectorSize⟩ (L.addr 0) (L.addr 1)) []
      (.ok, nvs) m := by
  have hinit := fwNvsInit_yields T fresh h.flash
  rw [← h.nvs_eq] at hinit
  exact hinit

end Delete

end ZeroEmbedded.Nvs
