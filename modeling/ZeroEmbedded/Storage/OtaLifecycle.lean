import ZeroEmbedded.Storage.OtaUpdate

/-!
# The OTA lifecycle

A run is a list of calls on one instance, over any driver at all. Its history
records for each call the instance before and after, the device and the status.
The transition functions store their new stage whatever the old one is, and
nothing compares the boot counter with its limit.

## Implementation notes

`fw_ota_init` loads what the flash holds, so the lifecycle moves in the updates
only. The driver is an arbitrary handler: the order of the stages does not
depend on what the flash does with the descriptor.
-/

namespace ZeroEmbedded.Ota

open Foundation

/-- `FW_OTA_STATE_DOWNLOADED`. -/
def fwOtaStateDownloaded : UInt32 := 0x5555AAAA

/-- A call on an OTA instance; `fw_ota_init` may find any values in it. -/
inductive OtaCall
  | init (fresh : FwOta) (flash : FwFlashDriver) (metadataAddr : Nat)
  | update (op : OtaOp)

def OtaCall.program (ota : FwOta) : OtaCall → FlashM (FwStatus × FwOta)
  | .init fresh flash metadataAddr => fwOtaInit fresh flash metadataAddr
  | .update op => op.program ota

/-- One call of a run: what it met and what it left. -/
structure OtaEvent (σ : Type) where
  call : OtaCall
  before : FwOta
  device : σ
  status : FwStatus
  after : FwOta

section History

variable {σ : Type} (D : Handler FlashCall FlashCall.Reply σ)

/-- The history of a run; `none` when a call does not return. -/
def history (ota : FwOta) (d : σ) : List OtaCall → Option (List (OtaEvent σ))
  | [] => some []
  | call :: calls =>
      match (call.program ota).run D d with
      | (some (st, ota'), d') => (history ota' d' calls).map (⟨call, ota, d, st, ota'⟩ :: ·)
      | (none, _) => none

end History

/-- The stages that may follow each other: a new image may come at any time, it is tested,
and a test ends in a confirmation or a rollback. -/
def chainAllows (stage next : UInt32) : Bool :=
  next == fwOtaStateDownloaded ||
  (next == fwOtaStatePendingVerify &&
    (stage == fwOtaStateDownloaded || stage == fwOtaStatePendingVerify)) ||
  (next == fwOtaStateConfirmed && stage == fwOtaStatePendingVerify) ||
  (next == fwOtaStateRollback &&
    (stage == fwOtaStatePendingVerify || stage == fwOtaStateConfirmed))

/-- The stage in which an event met the instance. -/
def OtaEvent.stage {σ : Type} (e : OtaEvent σ) : UInt32 := e.before.currentDesc.state

/-- The update of an event would break the chain. -/
def OtaEvent.breaksChain {σ : Type} (e : OtaEvent σ) (op : OtaOp) : Prop :=
  chainAllows e.stage (op.newDesc e.before.currentDesc).state = false

/-- What the lifecycle demands of an event. -/
structure OtaEvent.InOrder {σ : Type} (e : OtaEvent σ) : Prop where
  confirmed : ∀ op, e.call = .update op → e.status = .ok →
    e.after.currentDesc.state = fwOtaStateConfirmed → e.stage = fwOtaStatePendingVerify
  pending : ∀ op, e.call = .update op → e.status = .ok →
    e.after.currentDesc.state = fwOtaStatePendingVerify →
      e.stage = fwOtaStateDownloaded ∨ e.stage = fwOtaStatePendingVerify
  refused : ∀ op, e.call = .update op → e.breaksChain op →
    e.status ≠ .ok ∧ e.after.currentDesc = e.before.currentDesc

section Order

variable {σ : Type} {D : Handler FlashCall FlashCall.Reply σ}

end Order

section Reboots

/-- The boot loader after a reset: mount the metadata and mark the image before jumping
into it. -/
def reboot (flash : FwFlashDriver) (metadataAddr : Nat) (fresh : FwOta) :
    FlashM (FwStatus × FwOta) := do
  let (st, ota) ← fwOtaInit fresh flash metadataAddr
  if st ≠ .ok then return (st, ota)
  fwOtaMarkPendingVerify ota

/-- The flash after a list of reboots on the never-failing device; each one starts with an
instance of its own. -/
def afterReboots (flash : FwFlashDriver) (metadataAddr : Nat) (m : Memory) (boots : List FwOta) :
    Memory :=
  boots.foldl (fun m fresh =>
    ((reboot flash metadataAddr fresh).run (idealFlash flash.sectorSize) m).2) m

/-- The descriptor that the next mount loads. -/
def storedDesc (metadataAddr : Nat) (m : Memory) : FwAppDesc :=
  loadedDesc (m.bytesAt metadataAddr appDescSize)

/-- The attempts stay within the limit of the first descriptor, and the attempt behind the
last allowed one is a rollback. -/
structure ForcedRollback (flash : FwFlashDriver) (metadataAddr : Nat) (m : Memory)
    (boots : List FwOta) : Prop where
  attempts_le : ∀ k ≤ boots.length,
    (storedDesc metadataAddr (afterReboots flash metadataAddr m (boots.take k))).bootAttempts ≤
      (storedDesc metadataAddr m).maxAttempts
  rolls_back : ∀ k < boots.length,
    (storedDesc metadataAddr (afterReboots flash metadataAddr m (boots.take k))).bootAttempts =
      (storedDesc metadataAddr m).maxAttempts →
    (storedDesc metadataAddr (afterReboots flash metadataAddr m (boots.take (k + 1)))).state =
      fwOtaStateRollback

variable {flash : FwFlashDriver} {a : Nat}

theorem loadedDesc_magic (b : List UInt8) : (loadedDesc b).magic = fwOtaDescMagic := by
  rw [loadedDesc]
  split
  · assumption
  · rfl

/-- A stored descriptor with a valid magic is loaded as it is. -/
theorem loadedDesc_bytes {d : FwAppDesc} (h : d.magic = fwOtaDescMagic) :
    loadedDesc d.bytes = d := by
  rw [loadedDesc, FwAppDesc.ofBytes_bytes, if_pos h]

/-- The image of a descriptor fills its erased sector from the start. -/
theorem bytesAt_updated (hsize : appDescSize ≤ flash.sectorSize) (m : Memory) (d : FwAppDesc) :
    ((m.erase a flash.sectorSize).program a d.bytes).bytesAt a appDescSize = d.bytes := by
  have hfits : ([] : List UInt8).length + d.bytes.length ≤ flash.sectorSize := by
    rw [FwAppDesc.bytes_length]
    exact hsize
  have hholds := (Memory.Holds.erase m a flash.sectorSize).program_append
    (Nat.add_zero a).symm hfits
  rw [List.nil_append] at hholds
  have hfull : d.bytes.length ≤ appDescSize := Nat.le_of_eq d.bytes_length
  rw [hholds.bytesAt_start hfull hsize]
  simp [appDescSize]

/-- A reboot marks the stored descriptor. -/
theorem storedDesc_reboot (hsize : appDescSize ≤ flash.sectorSize) (m : Memory) (fresh : FwOta) :
    storedDesc a ((reboot flash a fresh).run (idealFlash flash.sectorSize) m).2 =
      OtaOp.newDesc (storedDesc a m) .markPendingVerify := by
  obtain ⟨m', hinit⟩ := fwOtaInit_run fresh flash a m
  have hmagic : (OtaOp.newDesc (storedDesc a m) .markPendingVerify).magic = fwOtaDescMagic :=
    loadedDesc_magic _
  have hrun : ((reboot flash a fresh).run (idealFlash flash.sectorSize) m).2 =
      (m'.erase a flash.sectorSize).program a
        (OtaOp.newDesc (storedDesc a m) .markPendingVerify).bytes := by
    rw [reboot, Program.run_bind, hinit]
    rfl
  rw [hrun, storedDesc, bytesAt_updated hsize, loadedDesc_bytes hmagic]

/-- Every reboot counts one attempt. -/
theorem bootAttempts_afterReboots (hsize : appDescSize ≤ flash.sectorSize) (m : Memory)
    (boots : List FwOta) :
    (storedDesc a (afterReboots flash a m boots)).bootAttempts =
      (storedDesc a m).bootAttempts + UInt32.ofNat boots.length := by
  induction boots generalizing m with
  | nil => simp [afterReboots]
  | cons fresh boots ih =>
      have hone : UInt32.ofNat (boots.length + 1) = UInt32.ofNat boots.length + 1 := by
        rw [UInt32.ofNat_add]
        rfl
      calc (storedDesc a (afterReboots flash a m (fresh :: boots))).bootAttempts
          = (storedDesc a
            ((reboot flash a fresh).run (idealFlash flash.sectorSize) m).2).bootAttempts
              + UInt32.ofNat boots.length := ih _
        _ = ((storedDesc a m).bootAttempts + 1) + UInt32.ofNat boots.length := by
            rw [storedDesc_reboot hsize]
            rfl
        _ = (storedDesc a m).bootAttempts + UInt32.ofNat (boots.length + 1) := by
            rw [hone, UInt32.add_assoc, UInt32.add_comm 1]

/-- Every reboot leaves the image pending, however often it was tried before. -/
theorem state_afterReboots (hsize : appDescSize ≤ flash.sectorSize) (m : Memory)
    {boots : List FwOta} {k : Nat} (hk : k < boots.length) :
    (storedDesc a (afterReboots flash a m (boots.take (k + 1)))).state =
      fwOtaStatePendingVerify := by
  rw [List.take_add_one, List.getElem?_eq_getElem hk, afterReboots, List.foldl_append]
  change (storedDesc a ((reboot flash a boots[k]).run (idealFlash flash.sectorSize) _).2).state = _
  rw [storedDesc_reboot hsize]
  rfl

/-- The rollback is forced exactly in the runs that never need it: those with no more attempts
than the descriptor allows. -/
theorem fwOta_forcedRollback_iff (flash : FwFlashDriver) (metadataAddr : Nat) (m : Memory)
    (boots : List FwOta) (hsize : appDescSize ≤ flash.sectorSize) :
    ForcedRollback flash metadataAddr m boots ↔
      (storedDesc metadataAddr m).bootAttempts.toNat + boots.length ≤
        (storedDesc metadataAddr m).maxAttempts.toNat := by
  have hmax := (storedDesc metadataAddr m).maxAttempts.toNat_lt
  have hcount : ∀ k ≤ boots.length,
      (storedDesc metadataAddr m).bootAttempts.toNat + k ≤
        (storedDesc metadataAddr m).maxAttempts.toNat →
      (storedDesc metadataAddr
        (afterReboots flash metadataAddr m (boots.take k))).bootAttempts.toNat =
          (storedDesc metadataAddr m).bootAttempts.toNat + k := by
    intro k hk hle
    rw [bootAttempts_afterReboots hsize, List.length_take_of_le hk, UInt32.toNat_add,
      UInt32.toNat_ofNat']
    omega
  constructor
  · intro hforced
    by_contra hmore
    have hstart : (storedDesc metadataAddr m).bootAttempts.toNat ≤
        (storedDesc metadataAddr m).maxAttempts.toNat :=
      UInt32.le_iff_toNat_le.mp (hforced.attempts_le 0 (Nat.zero_le _))
    -- the reboot behind the last allowed attempt
    obtain ⟨k, hk⟩ := Nat.exists_eq_add_of_le hstart
    have hlt : k < boots.length := by omega
    have hlast := hcount k (Nat.le_of_lt hlt) (by omega)
    have hroll := hforced.rolls_back k hlt (UInt32.toNat_inj.mp (by rw [hlast, hk]))
    rw [state_afterReboots hsize m hlt] at hroll
    exact absurd hroll (by decide)
  · intro hle
    constructor
    · intro k hk
      apply UInt32.le_iff_toNat_le.mpr
      rw [hcount k hk (by omega)]
      omega
    · intro k hk hlast
      have hattempts := hcount k (Nat.le_of_lt hk) (by omega)
      rw [hlast] at hattempts
      omega

/-- A flash that holds a downloaded image with three attempts. -/
def downloadedFlash : Memory := fun x =>
  ({ sampleDesc with state := fwOtaStateDownloaded } : FwAppDesc).bytes.getD x 0xFF

/-- Two reboots of the downloaded image stay within its limit. -/
theorem fwOta_forcedRollback_sample :
    ForcedRollback ⟨256⟩ 0 downloadedFlash [sampleOta, sampleOta] ↔
      (storedDesc 0 downloadedFlash).bootAttempts.toNat + 2 ≤
        (storedDesc 0 downloadedFlash).maxAttempts.toNat :=
  fwOta_forcedRollback_iff ⟨256⟩ 0 downloadedFlash [sampleOta, sampleOta] (by decide)

/-- The fourth boot of the downloaded image is pending again. -/
theorem fwOta_boots_forever :
    (storedDesc 0 downloadedFlash).maxAttempts = 3 ∧
      (storedDesc 0
        (afterReboots ⟨256⟩ 0 downloadedFlash (List.replicate 4 sampleOta))).bootAttempts = 4 ∧
      (storedDesc 0 (afterReboots ⟨256⟩ 0 downloadedFlash (List.replicate 4 sampleOta))).state =
        fwOtaStatePendingVerify ∧
      ¬ ForcedRollback ⟨256⟩ 0 downloadedFlash (List.replicate 4 sampleOta) := by
  have hattempts : (storedDesc 0
      (afterReboots ⟨256⟩ 0 downloadedFlash (List.replicate 4 sampleOta))).bootAttempts = 4 := by
    decide +kernel
  have hmax : (storedDesc 0 downloadedFlash).maxAttempts = 3 := by decide +kernel
  refine ⟨hmax, hattempts, by decide +kernel, ?_⟩
  intro hforced
  have hle := hforced.attempts_le 4 (by decide)
  rw [List.take_of_length_le (by simp), hattempts, hmax] at hle
  exact absurd hle (by decide)

end Reboots

end ZeroEmbedded.Ota
