import ZeroEmbedded.Storage.Flash

/-!
# The OTA descriptor

`fw_ota_set_desc` erases the metadata sector and then programs the new
descriptor, and `fw_ota_init` accepts a descriptor by its magic word alone.
The three state transitions are updates of the current descriptor.
-/

namespace ZeroEmbedded.Ota

open Foundation

/-- `FW_OTA_DESC_MAGIC`. -/
def fwOtaDescMagic : UInt32 := 0x5A45524F

/-- `FW_OTA_STATE_EMPTY`. -/
def fwOtaStateEmpty : UInt32 := 0xFFFFFFFF

/-- `FW_OTA_STATE_PENDING_VERIFY`. -/
def fwOtaStatePendingVerify : UInt32 := 0xAA55AA55

/-- `FW_OTA_STATE_CONFIRMED`. -/
def fwOtaStateConfirmed : UInt32 := 0x12345678

/-- `FW_OTA_STATE_ROLLBACK`. -/
def fwOtaStateRollback : UInt32 := 0xDEAD0001

/-- `fw_app_desc_t`. -/
structure FwAppDesc where
  magic : UInt32
  versionMajor : UInt32
  versionMinor : UInt32
  versionPatch : UInt32
  imageSize : UInt32
  imageCrc32 : UInt32
  state : UInt32
  bootAttempts : UInt32
  maxAttempts : UInt32
  reserved : Vector UInt32 7
  deriving DecidableEq

/-- `sizeof(fw_app_desc_t)`. -/
def appDescSize : Nat := 64

namespace FwAppDesc

def words (d : FwAppDesc) : List UInt32 :=
  [d.magic, d.versionMajor, d.versionMinor, d.versionPatch, d.imageSize, d.imageCrc32, d.state,
    d.bootAttempts, d.maxAttempts] ++ d.reserved.toList

def bytes (d : FwAppDesc) : List UInt8 := d.words.flatMap le32

def ofBytes (b : List UInt8) : FwAppDesc where
  magic := wordAt b 0
  versionMajor := wordAt b 1
  versionMinor := wordAt b 2
  versionPatch := wordAt b 3
  imageSize := wordAt b 4
  imageCrc32 := wordAt b 5
  state := wordAt b 6
  bootAttempts := wordAt b 7
  maxAttempts := wordAt b 8
  reserved := Vector.ofFn fun i => wordAt b (9 + i)

theorem words_length (d : FwAppDesc) : d.words.length = 16 := by simp [words]

@[simp] theorem bytes_length (d : FwAppDesc) : d.bytes.length = 64 := by
  have h : ∀ ws : List UInt32, (ws.flatMap le32).length = 4 * ws.length := fun ws => by
    induction ws with
    | nil => rfl
    | cons w ws ih =>
        rw [List.flatMap_cons, List.length_append, ih, le32_length, List.length_cons]
        omega
  rw [bytes, h, words_length]

@[simp] theorem ofBytes_bytes (d : FwAppDesc) : ofBytes d.bytes = d := by
  have hres : (Vector.ofFn fun i : Fin 7 => wordAt d.bytes (9 + i)) = d.reserved := by
    apply Vector.ext
    intro i hi
    have hi' : i < d.reserved.toList.length := by simpa using hi
    rw [Vector.getElem_ofFn, bytes, wordAt_flatMap_le32, words, List.getD_eq_getElem?_getD,
      List.getElem?_append_right (by simp)]
    simp [List.getElem?_eq_getElem hi']
  obtain ⟨magic, major, minor, patch, size, crc, state, attempts, maxAttempts, reserved⟩ := d
  rw [ofBytes, hres]
  simp only [bytes, wordAt_flatMap_le32]
  rfl

/-- A full descriptor image is the layout of the descriptor it shows. -/
theorem bytes_ofBytes {b : List UInt8} (h : b.length = 64) : (ofBytes b).bytes = b := by
  have hwords : (ofBytes b).words = (List.range 16).map (wordAt b) := by
    have hres : (Vector.ofFn fun i : Fin 7 => wordAt b (9 + i)).toList =
        [wordAt b 9, wordAt b 10, wordAt b 11, wordAt b 12, wordAt b 13, wordAt b 14,
          wordAt b 15] := by
      simp [Vector.toList_ofFn, List.ofFn_succ]
    rw [words, ofBytes, hres]
    rfl
  rw [bytes, hwords]
  exact flatMap_le32_wordAt h

theorem ofBytes_eq_iff {b : List UInt8} (h : b.length = 64) (d : FwAppDesc) :
    ofBytes b = d ↔ b = d.bytes := by
  constructor
  · rintro rfl
    rw [bytes_ofBytes h]
  · rintro rfl
    exact ofBytes_bytes d

end FwAppDesc

/-- `fw_ota_t`. -/
structure FwOta where
  flash : FwFlashDriver
  metadataAddr : Nat
  currentDesc : FwAppDesc

/-- The descriptor that `fw_ota_init` writes into an uninitialised sector. -/
def defaultDesc : FwAppDesc where
  magic := fwOtaDescMagic
  versionMajor := 0
  versionMinor := 1
  versionPatch := 0
  imageSize := 0
  imageCrc32 := 0
  state := fwOtaStateEmpty
  bootAttempts := 0
  maxAttempts := 3
  reserved := Vector.replicate 7 0

def fwOtaSetDesc (ota : FwOta) (desc : FwAppDesc) : FlashM (FwStatus × FwOta) := do
  let st ← flashErase ota.metadataAddr
  if st ≠ .ok then return (st, ota)
  let st ← flashWrite ota.metadataAddr desc.bytes
  if st ≠ .ok then return (st, ota)
  return (.ok, { ota with currentDesc := desc })

def fwOtaInit (ota : FwOta) (flash : FwFlashDriver) (metadataAddr : Nat) :
    FlashM (FwStatus × FwOta) := do
  let ota := { ota with flash := flash, metadataAddr := metadataAddr }
  let (st, buf) ← flashRead metadataAddr appDescSize
  if st ≠ .ok then return (st, ota)
  let desc := FwAppDesc.ofBytes buf
  if desc.magic ≠ fwOtaDescMagic then
    let (st, ota) ← fwOtaSetDesc ota defaultDesc
    if st ≠ .ok then return (st, ota)
    return (.ok, { ota with currentDesc := defaultDesc })
  else return (.ok, { ota with currentDesc := desc })

def fwOtaMarkPendingVerify (ota : FwOta) : FlashM (FwStatus × FwOta) :=
  fwOtaSetDesc ota { ota.currentDesc with
    state := fwOtaStatePendingVerify, bootAttempts := ota.currentDesc.bootAttempts + 1 }

def fwOtaConfirm (ota : FwOta) : FlashM (FwStatus × FwOta) :=
  fwOtaSetDesc ota { ota.currentDesc with state := fwOtaStateConfirmed, bootAttempts := 0 }

def fwOtaRollback (ota : FwOta) : FlashM (FwStatus × FwOta) :=
  fwOtaSetDesc ota { ota.currentDesc with state := fwOtaStateRollback }

end ZeroEmbedded.Ota
