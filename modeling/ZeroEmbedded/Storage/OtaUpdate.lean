import ZeroEmbedded.Storage.Ota

/-!
# Interrupted descriptor updates

The driver call that an update cannot complete is its erase or its write. A
fault says which one and after how many bytes; the flash it leaves is the same
whether the call reports an error or the power fails. The next `fw_ota_init`
judges the 64 bytes it finds by their magic word.
-/

namespace ZeroEmbedded.Ota

open Foundation

/-- The call that stops, and the number of bytes it has handled by then. -/
inductive UpdateFault
  | erase (n : Nat)
  | write (n : Nat)

/-- The device whose erase or write stops at the fault and reports `st`. -/
def faultyFlash (S : Nat) (fault : UpdateFault) (st : FwStatus) :
    Handler FlashCall FlashCall.Reply Memory
  | .read a n, m => ((.ok, m.bytesAt a n), m)
  | .write a data, m =>
      match fault with
      | .erase _ => (.ok, m.program a data)
      | .write n => (st, m.program a (data.take n))
  | .eraseSector a, m =>
      match fault with
      | .erase n => (st, m.erase a (min n S))
      | .write _ => (.ok, m.erase a S)

/-- The functions that update the descriptor. -/
inductive OtaOp
  | setDesc (desc : FwAppDesc)
  | markPendingVerify
  | confirm
  | rollback

def OtaOp.program (ota : FwOta) : OtaOp → FlashM (FwStatus × FwOta)
  | .setDesc desc => fwOtaSetDesc ota desc
  | .markPendingVerify => fwOtaMarkPendingVerify ota
  | .confirm => fwOtaConfirm ota
  | .rollback => fwOtaRollback ota

/-- The descriptor that an update stores in place of the old one. -/
def OtaOp.newDesc (old : FwAppDesc) : OtaOp → FwAppDesc
  | .setDesc desc => desc
  | .markPendingVerify =>
      { old with state := fwOtaStatePendingVerify, bootAttempts := old.bootAttempts + 1 }
  | .confirm => { old with state := fwOtaStateConfirmed, bootAttempts := 0 }
  | .rollback => { old with state := fwOtaStateRollback }

/-- Every update is a `fw_ota_set_desc` of its new descriptor. -/
theorem OtaOp.program_eq (ota : FwOta) (op : OtaOp) :
    op.program ota = fwOtaSetDesc ota (op.newDesc ota.currentDesc) := by
  cases op <;> rfl

/-- The instance holds the descriptor that is stored in flash. -/
def AgreesWithFlash (ota : FwOta) (m : Memory) : Prop :=
  m.bytesAt ota.metadataAddr appDescSize = ota.currentDesc.bytes

/-- The result and the flash of an update that meets the fault. -/
def faultyUpdate (ota : FwOta) (m : Memory) (op : OtaOp) (fault : UpdateFault) (st : FwStatus) :
    Option (FwStatus × FwOta) × Memory :=
  (op.program ota).run (faultyFlash ota.flash.sectorSize fault st) m

/-- The next mount loads the old or the new descriptor, and when the power stays on the
error is returned by an instance that agrees with the flash. -/
structure UpdateSafe (ota : FwOta) (m : Memory) (op : OtaOp) (fault : UpdateFault)
    (st : FwStatus) (powerOn : Bool) : Prop where
  loads : ∀ fresh, ∃ ota' m', (fwOtaInit fresh ota.flash ota.metadataAddr).run
      (idealFlash ota.flash.sectorSize) (faultyUpdate ota m op fault st).2 =
        (some (.ok, ota'), m') ∧
    (ota'.currentDesc = ota.currentDesc ∨ ota'.currentDesc = op.newDesc ota.currentDesc)
  coherent : powerOn = true → ∃ ota' m', faultyUpdate ota m op fault st = (some (st, ota'), m') ∧
    AgreesWithFlash ota' m'

/-- The fault leaves bytes that load as the old or the new descriptor. -/
def LoadsOldOrNew (old new : FwAppDesc) : UpdateFault → Prop
  | .erase 0 => old.magic = fwOtaDescMagic ∨ new = defaultDesc
  | .erase (_ + 1) => old = defaultDesc ∨ new = defaultDesc
  | .write n =>
      if 4 ≤ n ∧ new.magic = fwOtaDescMagic then
        (∀ x ∈ new.bytes.drop n, x = 0xFF) ∨
          old.bytes = new.bytes.take n ++ List.replicate (64 - n) 0xFF
      else old = defaultDesc ∨ new = defaultDesc

/-- The fault leaves the bytes of the old descriptor. -/
def KeepsOldBytes (old new : FwAppDesc) : UpdateFault → Prop
  | .erase n => ∀ x ∈ old.bytes.take n, x = 0xFF
  | .write n => old.bytes = new.bytes.take n ++ List.replicate (64 - n) 0xFF

section Torn

/-- The descriptor bytes that the fault leaves. -/
def tornBytes (old new : FwAppDesc) : UpdateFault → List UInt8
  | .erase n => List.replicate (min n 64) 0xFF ++ old.bytes.drop n
  | .write n => new.bytes.take n ++ List.replicate (64 - n) 0xFF

/-- What `fw_ota_init` makes of the bytes it reads. -/
def loadedDesc (b : List UInt8) : FwAppDesc :=
  if (FwAppDesc.ofBytes b).magic = fwOtaDescMagic then FwAppDesc.ofBytes b else defaultDesc

theorem tornBytes_length (old new : FwAppDesc) (fault : UpdateFault) :
    (tornBytes old new fault).length = 64 := by
  cases fault with
  | erase n =>
      rw [tornBytes, List.length_append, List.length_replicate, List.length_drop,
        FwAppDesc.bytes_length]
      omega
  | write n =>
      rw [tornBytes, List.length_append, List.length_replicate, List.length_take,
        FwAppDesc.bytes_length]
      omega

/-- An update that meets the fault returns the error, keeps the instance and leaves the torn
bytes. -/
theorem faultyUpdate_eq {ota : FwOta} {m : Memory} {st : FwStatus} (op : OtaOp)
    (fault : UpdateFault) (hst : st ≠ .ok) (hagree : AgreesWithFlash ota m)
    (hsize : appDescSize ≤ ota.flash.sectorSize) :
    ∃ m', faultyUpdate ota m op fault st = (some (st, ota), m') ∧
      m'.bytesAt ota.metadataAddr appDescSize =
        tornBytes ota.currentDesc (op.newDesc ota.currentDesc) fault := by
  rw [faultyUpdate, OtaOp.program_eq]
  cases fault with
  | erase n =>
      refine ⟨m.erase ota.metadataAddr (min n ota.flash.sectorSize), ?_, ?_⟩
      · change Program.run _ (if st ≠ .ok then _ else _) _ = _
        rw [if_pos hst]
        rfl
      · rw [Memory.bytesAt_erase_start, hagree, tornBytes]
        rw [appDescSize] at hsize ⊢
        have hlen := ota.currentDesc.bytes_length
        by_cases hn : n ≤ ota.flash.sectorSize
        · rw [Nat.min_eq_left hn]
        · rw [Nat.min_eq_right (by omega : ota.flash.sectorSize ≤ n),
            List.drop_eq_nil_of_le (by omega), List.drop_eq_nil_of_le (by omega),
            Nat.min_eq_right hsize, Nat.min_eq_right (by omega)]
  | write n =>
      refine ⟨(m.erase ota.metadataAddr ota.flash.sectorSize).program ota.metadataAddr
        ((op.newDesc ota.currentDesc).bytes.take n), ?_, ?_⟩
      · change Program.run _ (if st ≠ .ok then _ else _) _ = _
        rw [if_pos hst]
        rfl
      · have hlen : ((op.newDesc ota.currentDesc).bytes.take n).length = min n 64 := by
          rw [List.length_take, FwAppDesc.bytes_length]
        rw [appDescSize] at hsize ⊢
        have h0 := Memory.Holds.erase m ota.metadataAddr ota.flash.sectorSize
        have h1 := h0.program_append (Nat.add_zero _).symm (by
          rw [List.length_nil, Nat.zero_add, hlen]
          omega : ([] : List UInt8).length + ((op.newDesc ota.currentDesc).bytes.take n).length ≤ _)
        rw [List.nil_append] at h1
        rw [h1.bytesAt_start (by omega) hsize, hlen, tornBytes]
        congr 2
        omega

/-- On a healthy device `fw_ota_init` loads what the bytes show. -/
theorem fwOtaInit_run (fresh : FwOta) (flash : FwFlashDriver) (a : Nat) (m : Memory) :
    ∃ m', (fwOtaInit fresh flash a).run (idealFlash flash.sectorSize) m =
      (some (.ok, ⟨flash, a, loadedDesc (m.bytesAt a appDescSize)⟩), m') := by
  by_cases hmagic : (FwAppDesc.ofBytes (m.bytesAt a appDescSize)).magic = fwOtaDescMagic
  · refine ⟨m, ?_⟩
    change Program.run _ (if (FwAppDesc.ofBytes (m.bytesAt a appDescSize)).magic ≠ fwOtaDescMagic
      then _ else _) _ = _
    rw [if_neg (not_not.mpr hmagic), loadedDesc, if_pos hmagic]
    rfl
  · refine ⟨(m.erase a flash.sectorSize).program a defaultDesc.bytes, ?_⟩
    change Program.run _ (if (FwAppDesc.ofBytes (m.bytesAt a appDescSize)).magic ≠ fwOtaDescMagic
      then _ else _) _ = _
    rw [if_pos hmagic, loadedDesc, if_neg hmagic]
    rfl

/-- Valid bytes start with the bytes of the magic word. -/
theorem bytes_of_magic {b : List UInt8} (h : (FwAppDesc.ofBytes b).magic = fwOtaDescMagic) :
    b.getD 0 0 = 0x4F ∧ b.getD 3 0 = 0x5A := by
  have hword : le32 (wordAt b 0) = [0x4F, 0x52, 0x45, 0x5A] := by
    rw [show wordAt b 0 = fwOtaDescMagic from h]
    decide
  rw [wordAt, le32_ofLe32] at hword
  simp only [List.cons.injEq, and_true, Nat.mul_zero, Nat.zero_add] at hword
  exact ⟨hword.1, hword.2.2.2⟩

/-- The magic word depends on the first four bytes only. -/
theorem magic_append (d : FwAppDesc) {n : Nat} (hn : 4 ≤ n) (rest : List UInt8) :
    (FwAppDesc.ofBytes (d.bytes.take n ++ rest)).magic = d.magic := by
  have hget : ∀ i, i < 4 → (d.bytes.take n ++ rest).getD i 0 = d.bytes.getD i 0 := fun i hi => by
    have hlen : i < (d.bytes.take n).length := by
      rw [List.length_take, FwAppDesc.bytes_length]
      omega
    rw [List.getD_eq_getElem?_getD, List.getD_eq_getElem?_getD, List.getElem?_append_left hlen,
      List.getElem?_take_of_lt (by omega)]
  have hword : wordAt (d.bytes.take n ++ rest) 0 = wordAt d.bytes 0 := by
    rw [wordAt, wordAt, hget _ (by omega), hget _ (by omega), hget _ (by omega), hget _ (by omega)]
  have hmagic := congrArg FwAppDesc.magic (FwAppDesc.ofBytes_bytes d)
  exact hword.trans hmagic

theorem defaultDesc_magic : defaultDesc.magic = fwOtaDescMagic := rfl

/-- The torn bytes load as one of the two descriptors under the stated conditions. -/
theorem loadedDesc_torn_iff (old new : FwAppDesc) (fault : UpdateFault) :
    (loadedDesc (tornBytes old new fault) = old ∨ loadedDesc (tornBytes old new fault) = new) ↔
      LoadsOldOrNew old new fault := by
  have hdefault : ∀ b : List UInt8, (FwAppDesc.ofBytes b).magic ≠ fwOtaDescMagic →
      ((loadedDesc b = old ∨ loadedDesc b = new) ↔ (old = defaultDesc ∨ new = defaultDesc)) := by
    intro b hb
    rw [loadedDesc, if_neg hb, eq_comm, eq_comm (a := defaultDesc)]
  have hlen := tornBytes_length old new fault
  match fault with
  | .erase 0 =>
      have hold : tornBytes old new (.erase 0) = old.bytes := by simp [tornBytes]
      by_cases hmagic : old.magic = fwOtaDescMagic
      · simp [hold, loadedDesc, LoadsOldOrNew, hmagic]
      · rw [hold, hdefault _ (by rwa [FwAppDesc.ofBytes_bytes])]
        have hne : old ≠ defaultDesc := fun he => hmagic (by rw [he, defaultDesc_magic])
        simp [LoadsOldOrNew, hmagic, hne]
  | .erase (n + 1) =>
      refine hdefault _ fun hmagic => ?_
      -- the first byte is erased
      have hfirst := (bytes_of_magic hmagic).1
      rw [tornBytes, show min (n + 1) 64 = min n 63 + 1 by omega, List.replicate_succ] at hfirst
      simp at hfirst
  | .write n =>
      by_cases hn : 4 ≤ n
      · by_cases hmagic : new.magic = fwOtaDescMagic
        · have htorn : (FwAppDesc.ofBytes (tornBytes old new (.write n))).magic =
              fwOtaDescMagic := by
            rw [tornBytes, magic_append new hn, hmagic]
          have hnew : tornBytes old new (.write n) = new.bytes ↔
              ∀ x ∈ new.bytes.drop n, x = 0xFF := by
            have hrest : (new.bytes.drop n).length = 64 - n := by
              rw [List.length_drop, FwAppDesc.bytes_length]
            have hcancel : tornBytes old new (.write n) = new.bytes ↔
                List.replicate (64 - n) 0xFF = new.bytes.drop n := by
              conv_lhs => rhs; rw [← List.take_append_drop n new.bytes]
              rw [tornBytes, List.append_right_inj]
            rw [hcancel, eq_comm, List.eq_replicate_iff]
            exact and_iff_right hrest
          rw [loadedDesc, if_pos htorn, FwAppDesc.ofBytes_eq_iff hlen,
            FwAppDesc.ofBytes_eq_iff hlen, hnew, LoadsOldOrNew, if_pos ⟨hn, hmagic⟩, or_comm,
            eq_comm]
          rfl
        · rw [LoadsOldOrNew, if_neg fun h => hmagic h.2]
          exact hdefault _ (by rwa [tornBytes, magic_append new hn])
      · rw [LoadsOldOrNew, if_neg fun h => hn h.1]
        refine hdefault _ fun hmagic => ?_
        -- the fourth byte is erased
        have hfourth := (bytes_of_magic hmagic).2
        have hshort : (new.bytes.take n).length = n := by
          rw [List.length_take, FwAppDesc.bytes_length]
          omega
        rw [tornBytes, List.getD_eq_getElem?_getD, List.getElem?_append_right (by omega), hshort,
          List.getElem?_replicate_of_lt (by omega)] at hfourth
        simp at hfourth

/-- The bytes of the old descriptor survive under the stated conditions. -/
theorem tornBytes_eq_old_iff (old new : FwAppDesc) (fault : UpdateFault) :
    tornBytes old new fault = old.bytes ↔ KeepsOldBytes old new fault := by
  cases fault with
  | erase n =>
      have hlen : (old.bytes.take n).length = min n 64 := by
        rw [List.length_take, FwAppDesc.bytes_length]
      have hcancel : tornBytes old new (.erase n) = old.bytes ↔
          List.replicate (min n 64) 0xFF = old.bytes.take n := by
        conv_lhs => rhs; rw [← List.take_append_drop n old.bytes]
        rw [tornBytes, List.append_left_inj]
      rw [hcancel, eq_comm, List.eq_replicate_iff]
      exact and_iff_right hlen
  | write n => exact eq_comm

end Torn

/-- An interrupted update is safe exactly when the bytes at the fault happen to load as the
old or the new descriptor and, when the power stays on, are still those of the old one. -/
theorem fwOta_update_safe_iff {ota : FwOta} {m : Memory} {st : FwStatus} (op : OtaOp)
    (fault : UpdateFault) (powerOn : Bool) (hst : st ≠ .ok) (hagree : AgreesWithFlash ota m)
    (hsize : appDescSize ≤ ota.flash.sectorSize) :
    UpdateSafe ota m op fault st powerOn ↔
      LoadsOldOrNew ota.currentDesc (op.newDesc ota.currentDesc) fault ∧
        (powerOn = true → KeepsOldBytes ota.currentDesc (op.newDesc ota.currentDesc) fault) := by
  obtain ⟨m', hrun, hbytes⟩ := faultyUpdate_eq op fault hst hagree hsize
  rw [← loadedDesc_torn_iff, ← tornBytes_eq_old_iff]
  constructor
  · rintro ⟨hloads, hcoherent⟩
    constructor
    · obtain ⟨ota', m'', hinit, hdesc⟩ := hloads ota
      obtain ⟨m₁, hinit'⟩ := fwOtaInit_run ota ota.flash ota.metadataAddr m'
      rw [hrun, hinit', hbytes] at hinit
      obtain ⟨rfl, _⟩ : _ = ota' ∧ m₁ = m'' := by simpa using hinit
      exact hdesc
    · intro hon
      obtain ⟨ota', m'', hres, hagree'⟩ := hcoherent hon
      rw [hrun] at hres
      obtain ⟨rfl, rfl⟩ : ota = ota' ∧ m' = m'' := by simpa using hres
      rw [← hbytes]
      exact hagree'
  · rintro ⟨hloads, hkeeps⟩
    constructor
    · intro fresh
      obtain ⟨m₁, hinit⟩ := fwOtaInit_run fresh ota.flash ota.metadataAddr m'
      rw [hbytes] at hinit
      exact ⟨_, m₁, by rw [hrun]; exact hinit, hloads⟩
    · intro hon
      exact ⟨ota, m', hrun, by rw [AgreesWithFlash, hbytes, hkeeps hon]⟩

/-- A confirmed descriptor of version 1.0.0. -/
def sampleDesc : FwAppDesc :=
  { defaultDesc with versionMajor := 1, versionMinor := 0, state := fwOtaStateConfirmed }

/-- An instance whose sector at address 0 holds the sample descriptor. -/
def sampleOta : FwOta := ⟨⟨256⟩, 0, sampleDesc⟩

def sampleFlash : Memory := fun x => sampleDesc.bytes.getD x 0xFF

theorem sampleOta_agrees : AgreesWithFlash sampleOta sampleFlash := by
  rw [AgreesWithFlash]
  decide +kernel

theorem fwOta_update_safe_sample :
    UpdateSafe sampleOta sampleFlash .rollback (.write 0) .errIo true ↔
      LoadsOldOrNew sampleDesc (OtaOp.newDesc sampleDesc .rollback) (.write 0) ∧
        (true = true → KeepsOldBytes sampleDesc (OtaOp.newDesc sampleDesc .rollback) (.write 0)) :=
  fwOta_update_safe_iff .rollback (.write 0) true (by decide) sampleOta_agrees (by decide)

/-- Between the erase and the write of a rollback both descriptors are lost. -/
theorem fwOta_rollback_loses :
    AgreesWithFlash sampleOta sampleFlash ∧
      ¬ UpdateSafe sampleOta sampleFlash .rollback (.write 0) .errIo false := by
  refine ⟨sampleOta_agrees, fun hsafe => ?_⟩
  obtain ⟨ota', m', hinit, hdesc⟩ := hsafe.loads sampleOta
  have hloaded : ((fwOtaInit sampleOta ⟨256⟩ 0).run (idealFlash 256)
      (faultyUpdate sampleOta sampleFlash .rollback (.write 0) .errIo).2).1.map
        (fun r => r.2.currentDesc) = some defaultDesc := by
    decide +kernel
  have hinit' : ((fwOtaInit sampleOta ⟨256⟩ 0).run (idealFlash 256)
      (faultyUpdate sampleOta sampleFlash .rollback (.write 0) .errIo).2) =
        (some (.ok, ota'), m') := hinit
  rw [hinit'] at hloaded
  have hdefault : ota'.currentDesc = defaultDesc := by simpa using hloaded
  rw [hdefault] at hdesc
  revert hdesc
  decide

end ZeroEmbedded.Ota
