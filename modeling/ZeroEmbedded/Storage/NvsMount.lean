import ZeroEmbedded.Storage.NvsScan

/-!
# Mounting and reading a store

`OnFlash` says that one bank is active with a given sequence number and log,
and that the other bank is not valid. The RAM state that belongs to it is
`ram`. Formatting and mounting establish both, and `fw_nvs_read` computes
`readLog` from the log.
-/

namespace ZeroEmbedded.Nvs

open Foundation

/-- The start of an active bank: its header, then its log. -/
def bankImage (seq : UInt32) (log : List NvsRecord) : List UInt8 :=
  (activeHdr seq).bytes ++ logBytes log

@[simp] theorem bankImage_length (seq : UInt32) (log : List NvsRecord) :
    (bankImage seq log).length = 16 + logSize log := by
  simp [bankImage]

/-- The sector header at an address. -/
def hdrAt (m : Memory) (a : Nat) : SectorHdr := SectorHdr.ofBytes (m.bytesAt a sectorHdrSize)

/-- Bank `b` is active with this sequence number and log. Behind the log the
cells are erased, except that fewer cells than a header needs may hold anything. -/
def ActiveBank (L : BankLayout) (m : Memory) (b : Fin 2) (seq : UInt32)
    (log : List NvsRecord) : Prop :=
  ∃ slack, m.Holds (L.addr b) L.sectorSize (bankImage seq log ++ slack) ∧
    (slack ≠ [] → L.sectorSize < sectorHdrSize + logSize log + recordHdrSize)

/-- Bank `b` has a valid header with this sequence number and starts with the records of
the log. Anything may lie behind them. -/
structure BankLog (L : BankLayout) (m : Memory) (b : Fin 2) (seq : UInt32)
    (log : List NvsRecord) : Prop where
  valid : (hdrAt m (L.addr b)).valid = true
  sequence : (hdrAt m (L.addr b)).sequence = seq
  fits : sectorHdrSize + logSize log ≤ L.sectorSize
  bytes : m.bytesAt (L.addr b + sectorHdrSize) (logSize log) = logBytes log

/-- One bank is active and the other one is not valid. -/
structure OnFlash (L : BankLayout) (m : Memory) (b : Fin 2) (seq : UInt32)
    (log : List NvsRecord) : Prop where
  active : ActiveBank L m b seq log
  standby : (hdrAt m (L.addr (1 - b))).valid = false

/-- The RAM state of an instance mounted on an active bank. -/
def ram (L : BankLayout) (b : Fin 2) (seq : UInt32) (log : List NvsRecord) : FwNvs where
  flash := ⟨L.sectorSize⟩
  bankAddr := L.addr
  activeBank := b
  writeOffset := sectorHdrSize + logSize log
  sequence := seq

@[simp] theorem ram_writeOffset (L : BankLayout) (b : Fin 2) (seq : UInt32)
    (log : List NvsRecord) : (ram L b seq log).writeOffset = sectorHdrSize + logSize log := rfl

@[simp] theorem ram_sectorSize (L : BankLayout) (b : Fin 2) (seq : UInt32)
    (log : List NvsRecord) : (ram L b seq log).flash.sectorSize = L.sectorSize := rfl

@[simp] theorem ram_bankAddr (L : BankLayout) (b : Fin 2) (seq : UInt32)
    (log : List NvsRecord) : (ram L b seq log).bankAddr = L.addr := rfl

@[simp] theorem ram_activeBank (L : BankLayout) (b : Fin 2) (seq : UInt32)
    (log : List NvsRecord) : (ram L b seq log).activeBank = b := rfl

@[simp] theorem ram_sequence (L : BankLayout) (b : Fin 2) (seq : UInt32)
    (log : List NvsRecord) : (ram L b seq log).sequence = seq := rfl

namespace ActiveBank

variable {L : BankLayout} {m m' : Memory} {b : Fin 2} {seq : UInt32} {log : List NvsRecord}

theorem logAt (h : ActiveBank L m b seq log) :
    ∃ slack, LogAt m (L.addr b) L.sectorSize sectorHdrSize log slack ∧
      (slack ≠ [] → L.sectorSize < sectorHdrSize + logSize log + recordHdrSize) := by
  obtain ⟨slack, hh, ht⟩ := h
  exact ⟨slack, ⟨(activeHdr seq).bytes, rfl, by simpa [bankImage] using hh⟩, ht⟩

theorem fits (h : ActiveBank L m b seq log) : sectorHdrSize + logSize log ≤ L.sectorSize := by
  obtain ⟨slack, hh, _⟩ := h
  have := hh.fits
  simp only [List.length_append, bankImage_length] at this
  rw [sectorHdrSize]
  omega

theorem hdr_eq (h : ActiveBank L m b seq log) : hdrAt m (L.addr b) = activeHdr seq := by
  obtain ⟨slack, hh, _⟩ := h
  have hsplit : bankImage seq log ++ slack =
      [] ++ (activeHdr seq).bytes ++ (logBytes log ++ slack) := by
    rw [bankImage, List.nil_append, List.append_assoc]
  rw [hsplit] at hh
  have hbytes : m.bytesAt (L.addr b) sectorHdrSize = (activeHdr seq).bytes :=
    hh.bytesAt_mid rfl (SectorHdr.bytes_length _).symm
  rw [hdrAt, hbytes, SectorHdr.ofBytes_bytes]

theorem congr (h : ActiveBank L m b seq log)
    (he : ∀ x, L.addr b ≤ x → x < L.addr b + L.sectorSize → m' x = m x) :
    ActiveBank L m' b seq log := by
  obtain ⟨slack, hh, ht⟩ := h
  exact ⟨slack, hh.congr he, ht⟩

/-- Erasing the other bank does not touch this one. -/
theorem erase_other (h : ActiveBank L m b seq log) :
    ActiveBank L (m.erase (L.addr (1 - b)) L.sectorSize) b seq log := by
  obtain ⟨slack, hh, ht⟩ := h
  exact ⟨slack, hh.erase_disjoint (L.addr_disjoint b).symm, ht⟩

theorem bankLog (h : ActiveBank L m b seq log) : BankLog L m b seq log where
  valid := by rw [h.hdr_eq, activeHdr_valid]
  sequence := by rw [h.hdr_eq, activeHdr_sequence]
  fits := h.fits
  bytes := by
    obtain ⟨_, hlog, _⟩ := h.logAt
    exact hlog.bytesAt_eq

end ActiveBank

namespace BankLog

variable {L : BankLayout} {m m' : Memory} {b : Fin 2} {seq : UInt32} {log : List NvsRecord}

theorem logAt (h : BankLog L m b seq log) :
    ∃ slack, LogAt m (L.addr b) L.sectorSize sectorHdrSize log slack :=
  LogAt.of_bytes h.fits h.bytes

/-- Only the header and the records count. -/
theorem congr (h : BankLog L m b seq log)
    (he : ∀ x, L.addr b ≤ x → x < L.addr b + (sectorHdrSize + logSize log) → m' x = m x) :
    BankLog L m' b seq log := by
  have hhdr : hdrAt m' (L.addr b) = hdrAt m (L.addr b) := by
    rw [hdrAt, hdrAt]
    congr 1
    exact Memory.bytesAt_congr fun x hl hr => he x hl (by omega)
  constructor
  · rw [hhdr, h.valid]
  · rw [hhdr, h.sequence]
  · exact h.fits
  · rw [← h.bytes]
    exact Memory.bytesAt_congr fun x hl hr => he x (by omega) (by omega)

/-- A record programmed right behind the log extends it. -/
theorem append (h : BankLog L m b seq log) {r : NvsRecord}
    (hfit : sectorHdrSize + logSize log + r.size ≤ L.sectorSize)
    (hr : m.bytesAt (L.addr b + (sectorHdrSize + logSize log)) r.size = r.bytes) :
    BankLog L m b seq (log ++ [r]) where
  valid := h.valid
  sequence := h.sequence
  fits := by
    rw [logSize_append, logSize_cons, logSize_nil]
    omega
  bytes := by
    rw [logSize_append, logSize_cons, logSize_nil, Nat.add_zero, Memory.bytesAt_append, h.bytes,
      Nat.add_assoc, hr, logBytes_append, logBytes_cons, logBytes_nil, List.append_nil]

theorem length_succ_lt (h : BankLog L m b seq log) : log.length + 1 < loopFuel := by
  have h1 := h.fits
  have h2 := length_le_logSize log
  have h3 := L.sectorSize_le
  rw [loopFuel]
  omega

end BankLog

/-- An erased bank is not valid. -/
theorem hdrAt_erase (L : BankLayout) (m : Memory) (b : Fin 2) :
    (hdrAt (m.erase (L.addr b) L.sectorSize) (L.addr b)).valid = false := by
  have h := Memory.Holds.erase m (L.addr b) L.sectorSize
  have hS : 0 + sectorHdrSize ≤ L.sectorSize := by
    have := L.sectorSize_ge
    rw [sectorHdrSize]
    omega
  rw [hdrAt, h.bytesAt_erased (Nat.add_zero _).symm (Nat.le_refl _) hS]
  exact SectorHdr.ofBytes_erased_valid

section Mount

variable {L : BankLayout} {m m' : Memory} {b : Fin 2} {seq : UInt32} {log : List NvsRecord}

theorem scanWriteOffset_yields (T : Target) {nvs : FwNvs} (hf : nvs.flash = ⟨L.sectorSize⟩)
    (ha : nvs.bankAddr = L.addr) (hb : nvs.activeBank = b) (hq : nvs.sequence = seq)
    (h : ActiveBank L m b seq log) :
    FlashYields L.sectorSize m (scanWriteOffset T nvs) [] (ram L b seq log) m := by
  obtain ⟨slack, hlog, ht⟩ := h.logAt
  have hscan : FlashYields L.sectorSize m
      (scanLoop T (nvs.bankAddr nvs.activeBank) nvs.flash.sectorSize loopFuel sectorHdrSize) []
      (sectorHdrSize + logSize log) m := by
    rw [hf, ha, hb]
    exact scanLoop_yields T (L.walkRegion b) (Nat.lt_of_succ_lt h.bankLog.length_succ_lt) hlog ht
  rw [scanWriteOffset]
  refine Program.Yields.bind hscan ?_
  have hram : { nvs with writeOffset := sectorHdrSize + logSize log } = ram L b seq log := by
    obtain ⟨flash, bankAddr, activeBank, writeOffset, sequence⟩ := nvs
    subst hf ha hb hq
    rfl
  rw [hram]
  exact Program.Yields.ret _ _

/-- The flash after a format: both banks erased, then the header of bank 0. -/
def formatImage (L : BankLayout) (m : Memory) : Memory :=
  ((m.erase (L.addr 0) L.sectorSize).erase (L.addr 1) L.sectorSize).program
    (L.addr 0) (activeHdr 1).bytes

theorem fwNvsFormat_yields (m : Memory) {nvs : FwNvs} (hf : nvs.flash = ⟨L.sectorSize⟩)
    (ha : nvs.bankAddr = L.addr) :
    FlashYields L.sectorSize m (fwNvsFormat nvs)
      [.eraseSector (L.addr 0), .eraseSector (L.addr 1), .write (L.addr 0) (activeHdr 1).bytes]
      (.ok, ram L 0 1 []) (formatImage L m) := by
  rw [fwNvsFormat, ha]
  refine FlashYields.erase (FlashYields.erase (FlashYields.write ?_))
  have hram : { nvs with activeBank := 0, writeOffset := sectorHdrSize, sequence := 1 } =
      ram L 0 1 [] := by
    obtain ⟨flash, bankAddr, activeBank, writeOffset, sequence⟩ := nvs
    subst hf ha
    rfl
  rw [ha] at hram
  simp only [hram, ne_eq, not_true_eq_false, if_false]
  exact Program.Yields.ret _ _

/-- Formatting activates bank 0 with an empty log. -/
theorem formatImage_onFlash (L : BankLayout) (m : Memory) : OnFlash L (formatImage L m) 0 1 [] where
  active := by
    have hS := L.sectorSize_ge
    have h0 : Memory.Holds ((m.erase (L.addr 0) L.sectorSize).erase (L.addr 1) L.sectorSize)
        (L.addr 0) L.sectorSize [] :=
      (Memory.Holds.erase m (L.addr 0) L.sectorSize).erase_disjoint L.disjoint.symm
    have h1 := h0.program_append (Nat.add_zero _).symm
      (by simp; omega : ([] : List UInt8).length + (activeHdr 1).bytes.length ≤ L.sectorSize)
    exact ⟨[], by simpa [bankImage, formatImage] using h1, fun h => absurd rfl h⟩
  standby := by
    have hd := L.disjoint
    have h1 := hdrAt_erase L (m.erase (L.addr 0) L.sectorSize) 1
    have hcongr : (formatImage L m).bytesAt (L.addr 1) sectorHdrSize =
        ((m.erase (L.addr 0) L.sectorSize).erase (L.addr 1) L.sectorSize).bytesAt (L.addr 1)
          sectorHdrSize := by
      refine Memory.bytesAt_congr fun x hl hr => Memory.program_of_outside ?_
      have hS := L.sectorSize_ge
      rw [sectorHdrSize] at hr
      rw [SectorHdr.bytes_length]
      omega
    change (SectorHdr.ofBytes _).valid = false
    rw [show L.addr (1 - 0) = L.addr 1 from rfl, hcongr]
    exact h1

/-- The comparison of `fw_nvs_init` between two valid banks, seen from bank `b`. -/
def Prefers (b : Fin 2) (seq other : UInt32) : Prop :=
  if b = 1 then seq > other else ¬ other > seq

instance (b : Fin 2) (seq other : UInt32) : Decidable (Prefers b seq other) :=
  inferInstanceAs (Decidable (if b = 1 then seq > other else ¬ other > seq))

theorem recoverBank_only (nvs : FwNvs) (hdr : Fin 2 → SectorHdr) (b : Fin 2)
    (hb : (hdr b).valid = true) (ho : (hdr (1 - b)).valid = false) :
    recoverBank nvs (hdr 0) (hdr 1) =
      pure { nvs with activeBank := b, sequence := (hdr b).sequence } := by
  rcases BankLayout.bank_cases b with rfl | rfl
  · have ho1 : (hdr 1).valid = false := ho
    simp [recoverBank, hb, ho1]
  · have ho0 : (hdr 0).valid = false := ho
    simp [recoverBank, hb, ho0]

theorem recoverBank_both (nvs : FwNvs) (hdr : Fin 2 → SectorHdr) (b : Fin 2)
    (hb : (hdr b).valid = true) (ho : (hdr (1 - b)).valid = true)
    (hp : Prefers b (hdr b).sequence (hdr (1 - b)).sequence) :
    recoverBank nvs (hdr 0) (hdr 1) =
      (flashErase (nvs.bankAddr (1 - b)) >>= fun _ =>
        pure { nvs with activeBank := b, sequence := (hdr b).sequence }) := by
  rcases BankLayout.bank_cases b with rfl | rfl
  · have ho1 : (hdr 1).valid = true := ho
    have hp1 : ¬ (hdr 1).sequence > (hdr 0).sequence := by simpa [Prefers] using hp
    simp only [recoverBank, hb, ho1, hp1, Bool.not_true, Bool.and_false, Bool.false_and,
      Bool.false_eq_true, if_false]
    rfl
  · have ho0 : (hdr 0).valid = true := ho
    have hp1 : (hdr 1).sequence > (hdr 0).sequence := by simpa [Prefers] using hp
    simp only [recoverBank, hb, ho0, hp1, Bool.not_true, Bool.and_false, Bool.false_and,
      Bool.false_eq_true, if_false, if_true]
    rfl

/-- The instance that `fw_nvs_init` works on after storing its arguments. -/
def attached (L : BankLayout) (fresh : FwNvs) : FwNvs :=
  { fresh with flash := ⟨L.sectorSize⟩, bankAddr := L.addr }

/-- `fw_nvs_init` on a layout: read both headers, then format or recover. -/
theorem fwNvsInit_eq (T : Target) (L : BankLayout) (fresh : FwNvs) (m : Memory)
    {cs : List FlashCall} {a : FwStatus × FwNvs}
    (h : FlashYields L.sectorSize m
      (if !(hdrAt m (L.addr 0)).valid && !(hdrAt m (L.addr 1)).valid then
        fwNvsFormat (attached L fresh)
      else do
        let nvs ← recoverBank (attached L fresh) (hdrAt m (L.addr 0)) (hdrAt m (L.addr 1))
        let nvs ← scanWriteOffset T nvs
        return (.ok, nvs)) cs a m') :
    FlashYields L.sectorSize m
      (fwNvsInit T fresh ⟨L.sectorSize⟩ (L.addr 0) (L.addr 1)) cs a m' := by
  have hS : ¬ L.sectorSize < 256 := Nat.not_lt.mpr L.sectorSize_ge
  have haddr : (![L.addr 0, L.addr 1] : Fin 2 → Nat) = L.addr := by
    funext i
    rcases BankLayout.bank_cases i with rfl | rfl <;> rfl
  rw [fwNvsInit, if_neg hS]
  refine FlashYields.read (FlashYields.read ?_)
  simp only [ne_eq, not_true_eq_false, if_false, haddr]
  exact h

theorem fwNvsInit_formats (T : Target) (fresh : FwNvs)
    (h0 : (hdrAt m (L.addr 0)).valid = false) (h1 : (hdrAt m (L.addr 1)).valid = false) :
    FlashYields L.sectorSize m (fwNvsInit T fresh ⟨L.sectorSize⟩ (L.addr 0) (L.addr 1))
      [.eraseSector (L.addr 0), .eraseSector (L.addr 1), .write (L.addr 0) (activeHdr 1).bytes]
      (.ok, ram L 0 1 []) (formatImage L m) := by
  have hrun := fwNvsFormat_yields m (rfl : (attached L fresh).flash = _) rfl
  refine fwNvsInit_eq T L fresh m ?_
  simpa [h0, h1] using hrun

/-- Once the bank is chosen, the scan rebuilds the RAM state. -/
theorem fwNvsInit_of_recover (T : Target) (fresh : FwNvs) {cs : List FlashCall}
    (hv : (hdrAt m (L.addr b)).valid = true)
    (hrec : FlashYields L.sectorSize m
      (recoverBank (attached L fresh) (hdrAt m (L.addr 0)) (hdrAt m (L.addr 1))) cs
      { attached L fresh with activeBank := b, sequence := seq } m')
    (hact : ActiveBank L m' b seq log) :
    FlashYields L.sectorSize m (fwNvsInit T fresh ⟨L.sectorSize⟩ (L.addr 0) (L.addr 1)) cs
      (.ok, ram L b seq log) m' := by
  have hcond : (!(hdrAt m (L.addr 0)).valid && !(hdrAt m (L.addr 1)).valid) = false := by
    rcases BankLayout.bank_cases b with rfl | rfl <;> simp [hv]
  apply fwNvsInit_eq
  rw [hcond, if_neg Bool.false_ne_true]
  have hscan : FlashYields L.sectorSize m'
      (scanWriteOffset T { attached L fresh with activeBank := b, sequence := seq }) []
      (ram L b seq log) m' := scanWriteOffset_yields T rfl rfl rfl rfl hact
  exact hrec.bind_observing (hscan.bind (Program.Yields.ret _ _))

/-- Mounting with one valid bank changes nothing and rebuilds the RAM state. -/
theorem fwNvsInit_yields (T : Target) (fresh : FwNvs) (h : OnFlash L m b seq log) :
    FlashYields L.sectorSize m (fwNvsInit T fresh ⟨L.sectorSize⟩ (L.addr 0) (L.addr 1)) []
      (.ok, ram L b seq log) m := by
  have hhdr := h.active.hdr_eq
  have hv : (hdrAt m (L.addr b)).valid = true := by rw [hhdr, activeHdr_valid]
  refine fwNvsInit_of_recover T fresh hv ?_ h.active
  rw [recoverBank_only _ (fun b => hdrAt m (L.addr b)) b hv h.standby, hhdr]
  exact Program.Yields.ret _ _

/-- Mounting with two valid banks erases the one that is not preferred. -/
theorem fwNvsInit_yields_both (T : Target) (fresh : FwNvs) (h : ActiveBank L m b seq log)
    (ho : (hdrAt m (L.addr (1 - b))).valid = true)
    (hp : Prefers b seq (hdrAt m (L.addr (1 - b))).sequence) :
    FlashYields L.sectorSize m (fwNvsInit T fresh ⟨L.sectorSize⟩ (L.addr 0) (L.addr 1))
      [.eraseSector (L.addr (1 - b))] (.ok, ram L b seq log)
      (m.erase (L.addr (1 - b)) L.sectorSize) := by
  have hhdr := h.hdr_eq
  have hv : (hdrAt m (L.addr b)).valid = true := by rw [hhdr, activeHdr_valid]
  refine fwNvsInit_of_recover T fresh hv ?_ h.erase_other
  rw [recoverBank_both _ (fun b => hdrAt m (L.addr b)) b hv ho (by simpa [hhdr] using hp), hhdr]
  exact FlashYields.erase (Program.Yields.ret _ _)

end Mount

section Read

variable {L : BankLayout} {m : Memory} {b : Fin 2} {seq : UInt32} {log : List NvsRecord}

/-- What `fw_nvs_read` returns for a record that holds a value. -/
def readRecord (r : NvsRecord) (outData : List UInt8) : ReadResult :=
  if outData.length < r.length then ⟨.errBufferOverflow, outData, none⟩
  else if calcRecordCrc r.hdr.key r.hdr.length r.payload ≠ r.hdr.crc16 then
    ⟨.errCorrupted, r.payload ++ outData.drop r.length, none⟩
  else ⟨.ok, r.payload ++ outData.drop r.length, some r.length⟩

/-- What `fw_nvs_read` returns for a log. -/
def readLog (log : List NvsRecord) (key : UInt16) (outData : List UInt8) : ReadResult :=
  match (KeyedLog.latest NvsRecord.key key log).filter NvsRecord.valid with
  | none => ⟨.errNotFound, outData, none⟩
  | some r => readRecord r outData

/-- The checksum reads no more of the buffer than the payload. -/
theorem calcRecordCrc_append (key length : UInt16) {payload : List UInt8} (rest : List UInt8)
    (h : payload.length = length.toNat) :
    calcRecordCrc key length (payload ++ rest) = calcRecordCrc key length payload := by
  simp only [calcRecordCrc, List.take_left' h, List.take_of_length_le (Nat.le_of_eq h)]

theorem readPayload_yields {S a n : Nat} {outData : List UInt8} :
    FlashYields S m (readPayload a n outData) []
      (.ok, m.bytesAt a n ++ outData.drop n) m := by
  rw [readPayload]
  by_cases hn : n > 0
  · rw [if_pos hn]
    refine FlashYields.read ?_
    rw [show outData.drop n = outData.drop (m.bytesAt a n).length by simp]
    exact Program.Yields.ret _ _
  · obtain rfl : n = 0 := by omega
    exact Program.Yields.ret _ _

/-- `fw_nvs_read` reads the log of the active bank and leaves the flash alone. -/
theorem fwNvsRead_yields (h : BankLog L m b seq log) {key : UInt16}
    (hkey : key ≠ fwNvsKeyEmpty) (outData : List UInt8) :
    FlashYields L.sectorSize m (fwNvsRead (ram L b seq log) key outData) []
      (readLog log key outData) m := by
  obtain ⟨slack, hlog⟩ := h.logAt
  obtain ⟨mt, hloop, hfinds⟩ := lookupLoop_yields (L.walkRegion b) key
    Match.initial (Nat.lt_of_succ_lt h.length_succ_lt) hlog
      (rfl : (ram L b seq log).writeOffset = _)
  rw [fwNvsRead, if_neg hkey]
  refine Program.Yields.bind hloop ?_
  rw [readLog]
  cases hlast : KeyedLog.latest NvsRecord.key key log with
  | none =>
      rw [hlast] at hfinds
      have hmt : mt = Match.initial := hfinds
      subst hmt
      exact Program.Yields.ret _ _
  | some r =>
      rw [hlast] at hfinds
      obtain ⟨hfound, hrest⟩ := hfinds
      have hrkey : r.hdr.key = key := (KeyedLog.latest_mem NvsRecord.key hlast).2
      cases hv : r.valid with
      | false =>
          rw [hv] at hfound
          simp only [hfound, Bool.not_false, if_true, Option.filter, hv]
          exact Program.Yields.ret _ _
      | true =>
          rw [hv] at hfound
          obtain ⟨hhdr, hbytes, hspace⟩ := hrest hv
          simp only [hfound, Bool.not_true, Bool.false_eq_true, if_false, Option.filter, hv,
            if_true, hhdr, readRecord]
          change FlashYields _ _ (if outData.length < r.length then _ else _) _ _ _
          by_cases hbuf : outData.length < r.length
          · simp only [if_pos hbuf]
            exact Program.Yields.ret _ _
          · have hread : m.bytesAt (u32 (L.addr b + mt.matchOffset + recordHdrSize)) r.length =
                r.payload := by
              rw [← hbytes]
              by_cases hlen : r.length = 0
              · rw [hlen, Memory.bytesAt_zero, Memory.bytesAt_zero]
              · rw [Nat.add_assoc, u32_of_lt (by omega)]
            have hpayload : FlashYields L.sectorSize m
                (readPayload (u32 (L.addr b + mt.matchOffset + recordHdrSize)) r.length outData) []
                (.ok, r.payload ++ outData.drop r.length) m := by
              rw [← hread]
              exact readPayload_yields
            simp only [if_neg hbuf]
            refine Program.Yields.bind hpayload ?_
            simp only [calcRecordCrc_append _ _ _ r.payload_length, hrkey, ne_eq,
              not_true_eq_false, if_false]
            split
            · exact Program.Yields.ret _ _
            · exact Program.Yields.ret _ _

end Read

end ZeroEmbedded.Nvs
