import ZeroEmbedded.Foundation.Checksum
import ZeroEmbedded.Foundation.CyclicCode
import ZeroEmbedded.Storage.Ota

/-!
# Verification of an image

`fw_ota_verify_image` reads the image in chunks and carries the checksum from
one chunk to the next. The checksum is the reflected cyclic code of 32 bits, so
it detects every change within four neighbouring bytes.
-/

namespace ZeroEmbedded.Ota

open Foundation

/-- One round of the inner loop of `crc32_step`. -/
def crc32Bit (crc : UInt32) : UInt32 := (crc >>> 1) ^^^ (0xEDB88320 &&& -(crc &&& 1))

/-- One round of the outer loop of `crc32_step`. -/
def crc32Byte (crc : UInt32) (byte : UInt8) : UInt32 := crc32Bit^[8] (crc ^^^ byte.toUInt32)

def crc32Step (crc : UInt32) (data : List UInt8) : UInt32 := data.foldl crc32Byte crc

def fwCrc32Compute (data : List UInt8) : UInt32 :=
  if data.length = 0 then 0 else ~~~(crc32Step 0xFFFFFFFF data)

/-- `sizeof(chunk_buf)`. -/
def chunkBufSize : Nat := 128

/-- The loop of `fw_ota_verify_image`. Every round reads at least one byte, so the loop ends
within as many rounds as bytes remain. -/
def verifyLoop : Nat → Nat → Nat → UInt32 → FlashM (FwStatus × UInt32)
  | fuel, remaining, currAddr, crcAcc =>
      if remaining > 0 then
        match fuel with
        | 0 => .stuck
        | fuel + 1 => do
            let toRead := if remaining > chunkBufSize then chunkBufSize else remaining
            let (st, chunkBuf) ← flashRead currAddr toRead
            if st ≠ .ok then return (st, crcAcc)
            verifyLoop fuel (remaining - toRead) (u32 (currAddr + toRead))
              (crc32Step crcAcc chunkBuf)
      else return (.ok, crcAcc)

def fwOtaVerifyImage (slotAddr : Nat) (desc : FwAppDesc) : FlashM FwStatus := do
  if desc.imageSize = 0 then return .errInvalidArg
  let (st, crcAcc) ← verifyLoop desc.imageSize.toNat desc.imageSize.toNat slotAddr 0xFFFFFFFF
  if st ≠ .ok then return st
  let finalCrc := ~~~crcAcc
  if finalCrc ≠ desc.imageCrc32 then return .errCorrupted
  return .ok

section Checksum

/-- The generator of `crc32_step` without its leading bit, the lowest bit first. -/
def crc32Generator : BitVec 32 := 0xEDB88320#32

theorem crc32Generator_low : crc32Generator.reverse.getLsbD 0 = true := by
  rw [BitVec.getLsbD_reverse]
  rfl

theorem crc32Bit_toBitVec (crc : UInt32) :
    (crc32Bit crc).toBitVec = CyclicCode.reflectedRound crc32Generator crc.toBitVec := by
  have hmask : (-(crc &&& 1)).toBitVec =
      if crc.toBitVec.getLsbD 0 then BitVec.allOnes 32 else 0#32 := by
    rw [UInt32.toBitVec_neg, UInt32.toBitVec_and]
    change -(crc.toBitVec &&& 1#32) = _
    rw [BitVec.and_one_eq_setWidth_ofBool_getLsbD]
    cases crc.toBitVec.getLsbD 0 <;> rfl
  rw [crc32Bit, UInt32.toBitVec_xor, UInt32.toBitVec_and, hmask, CyclicCode.reflectedRound]
  cases crc.toBitVec.getLsbD 0 <;> rfl

theorem crc32Byte_toBitVec (crc : UInt32) (byte : UInt8) :
    (crc32Byte crc byte).toBitVec =
      CyclicCode.reflectedStep crc32Generator crc.toBitVec byte.toBitVec :=
  (Function.Semiconj.iterate_right crc32Bit_toBitVec 8) _

theorem crc32Step_toBitVec (crc : UInt32) (data : List UInt8) :
    (crc32Step crc data).toBitVec =
      (data.map UInt8.toBitVec).foldl (CyclicCode.reflectedStep crc32Generator) crc.toBitVec := by
  induction data generalizing crc with
  | nil => rfl
  | cons byte data ih =>
      rw [crc32Step, List.foldl_cons, ← crc32Step, ih, crc32Byte_toBitVec]
      rfl

theorem crc32Byte_injective (byte : UInt8) : Function.Injective fun crc => crc32Byte crc byte := by
  intro crc crc' h
  have hstep := congrArg UInt32.toBitVec h
  dsimp only at hstep
  rw [crc32Byte_toBitVec, crc32Byte_toBitVec] at hstep
  exact UInt32.toBitVec_inj.mp
    (CyclicCode.reflectedStep_injective (by omega) crc32Generator_low _ hstep)

/-- Four steps lose nothing of their four bytes. -/
theorem crc32Step_window (crc : UInt32) (x y : List UInt8) (hlen : x.length = y.length)
    (hfour : x.length ≤ 4) (h : crc32Step crc x = crc32Step crc y) : x = y := by
  have hstep := congrArg UInt32.toBitVec h
  rw [crc32Step_toBitVec, crc32Step_toBitVec] at hstep
  have hmap := CyclicCode.foldl_reflectedStep_window (by omega) crc32Generator_low crc.toBitVec
    (by simpa using hlen) (by rw [List.length_map]; omega) hstep
  exact List.map_injective_iff.mpr (fun _ _ => UInt8.toBitVec_inj.mp) hmap

theorem crc32Step_append (crc : UInt32) (first second : List UInt8) :
    crc32Step crc (first ++ second) = crc32Step (crc32Step crc first) second :=
  List.foldl_append

/-- The checksum detects a change within four neighbouring bytes. -/
theorem fwCrc32Compute_ne {v v' : List UInt8} {i : Nat} (hlen : v.length = v'.length)
    (hchange : ∀ j, v[j]? ≠ v'[j]? → i ≤ j ∧ j < i + 4) (hne : v ≠ v') :
    fwCrc32Compute v ≠ fwCrc32Compute v' := by
  have hpos : v.length ≠ 0 := by
    intro hzero
    rw [List.length_eq_zero_iff.mp hzero,
      List.length_eq_zero_iff.mp (hlen.symm.trans hzero)] at hne
    exact hne rfl
  rw [fwCrc32Compute, fwCrc32Compute, if_neg hpos, if_neg (hlen ▸ hpos), ne_eq, UInt32.not_inj]
  exact Checksum.foldl_ne_of_window crc32Byte_injective crc32Step_window hlen hchange hne _

end Checksum

section Verify

variable (D : Handler FlashCall FlashCall.Reply Memory)

/-- Whatever is left to read, the loop folds it into the checksum. -/
theorem verifyLoop_run (hread : ∀ a n m, D (.read a n) m = ((.ok, m.bytesAt a n), m))
    (flash : Memory) {fuel remaining currAddr : Nat} (crcAcc : UInt32)
    (hfuel : remaining ≤ fuel) (hend : currAddr + remaining ≤ 2 ^ 32) :
    (verifyLoop fuel remaining currAddr crcAcc).run D flash =
      (some (.ok, crc32Step crcAcc (flash.bytesAt currAddr remaining)), flash) := by
  induction fuel generalizing remaining currAddr crcAcc with
  | zero =>
      obtain rfl : remaining = 0 := by omega
      rfl
  | succ fuel ih =>
      rw [verifyLoop]
      rcases Nat.eq_zero_or_pos remaining with rfl | hpos
      · rfl
      · rw [if_pos hpos]
        dsimp only
        generalize htoRead : (if remaining > chunkBufSize then chunkBufSize else remaining) = toRead
        have hchunk : 0 < toRead ∧ toRead ≤ remaining := by
          rw [← htoRead, chunkBufSize]
          split <;> omega
        rw [run_flashRead, hread]
        dsimp only
        rw [if_neg fun h => h rfl, ih _ (by omega) (by rw [u32]; omega)]
        have hnext : flash.bytesAt (u32 (currAddr + toRead)) (remaining - toRead) =
            flash.bytesAt (currAddr + toRead) (remaining - toRead) := by
          rcases Nat.eq_zero_or_pos (remaining - toRead) with hzero | hmore
          · rw [hzero, Memory.bytesAt_zero, Memory.bytesAt_zero]
          · rw [u32_of_lt (by omega)]
        rw [hnext, ← crc32Step_append, ← Memory.bytesAt_append, Nat.add_sub_cancel' hchunk.2]

theorem fwOtaVerifyImage_run (hread : ∀ a n m, D (.read a n) m = ((.ok, m.bytesAt a n), m))
    (flash : Memory) {slotAddr : Nat} {desc : FwAppDesc} (hsize : 1 ≤ desc.imageSize.toNat)
    (hend : slotAddr + desc.imageSize.toNat ≤ 2 ^ 32) :
    (fwOtaVerifyImage slotAddr desc).run D flash =
      (some (if fwCrc32Compute (flash.bytesAt slotAddr desc.imageSize.toNat) = desc.imageCrc32
        then .ok else .errCorrupted), flash) := by
  have hne : desc.imageSize ≠ 0 := by
    intro hzero
    rw [hzero] at hsize
    exact absurd hsize (by decide)
  have hlen : (flash.bytesAt slotAddr desc.imageSize.toNat).length ≠ 0 := by
    rw [Memory.bytesAt_length]
    omega
  rw [fwOtaVerifyImage, if_neg hne, Program.run_bind,
    verifyLoop_run D hread flash 0xFFFFFFFF (Nat.le_refl _) hend, fwCrc32Compute, if_neg hlen]
  dsimp only
  rw [if_neg fun h => h rfl]
  split
  · rfl
  · next hcrc => rw [if_pos (not_not.mp hcrc)]; rfl

/-- The image is accepted exactly when its checksum is the one of the descriptor, and an
accepted image is rejected after any change within four neighbouring bytes. -/
theorem fwOtaVerifyImage_exact
    (hread : ∀ a n m, D (.read a n) m = ((.ok, m.bytesAt a n), m)) (slotAddr : Nat)
    (desc : FwAppDesc) (hsize : 1 ≤ desc.imageSize.toNat)
    (hend : slotAddr + desc.imageSize.toNat ≤ 2 ^ 32) :
    (∀ flash, (fwOtaVerifyImage slotAddr desc).run D flash =
      (some (if fwCrc32Compute (flash.bytesAt slotAddr desc.imageSize.toNat) = desc.imageCrc32
        then .ok else .errCorrupted), flash)) ∧
    ∀ (flash flash' : Memory) (a : Nat),
      (fwOtaVerifyImage slotAddr desc).run D flash = (some .ok, flash) →
      (∀ x, slotAddr ≤ x → x < slotAddr + desc.imageSize.toNat → flash' x ≠ flash x →
        a ≤ x ∧ x < a + 4) →
      (∃ x, slotAddr ≤ x ∧ x < slotAddr + desc.imageSize.toNat ∧ flash' x ≠ flash x) →
      (fwOtaVerifyImage slotAddr desc).run D flash' = (some .errCorrupted, flash') := by
  refine ⟨fun flash => fwOtaVerifyImage_run D hread flash hsize hend, ?_⟩
  intro flash flash' a hok hchange hdiffers
  rw [fwOtaVerifyImage_run D hread flash hsize hend] at hok
  have hcrc : fwCrc32Compute (flash.bytesAt slotAddr desc.imageSize.toNat) = desc.imageCrc32 := by
    by_contra hne
    rw [if_neg hne] at hok
    cases hok
  have hne : flash.bytesAt slotAddr desc.imageSize.toNat ≠
      flash'.bytesAt slotAddr desc.imageSize.toNat := by
    obtain ⟨x, hlo, hhi, hx⟩ := hdiffers
    intro heq
    have hget := congrArg (fun bytes => bytes[x - slotAddr]?) heq
    rw [Memory.getElem?_bytesAt, Memory.getElem?_bytesAt, if_pos (by omega), if_pos (by omega),
      Nat.add_sub_cancel' hlo] at hget
    exact hx (Option.some.inj hget).symm
  have hdetect := fwCrc32Compute_ne (by simp) (fun j hj => Memory.bytesAt_window hchange hj) hne
  rw [fwOtaVerifyImage_run D hread flash' hsize hend, if_neg (hcrc ▸ hdetect.symm)]

/-- Four erased bytes at address 16. -/
def erasedImageDesc : FwAppDesc := { defaultDesc with imageSize := 4, imageCrc32 := 0xFFFFFFFF }

theorem fwOtaVerifyImage_exact_sample :
    (fwOtaVerifyImage 16 erasedImageDesc).run (idealFlash 256) (fun _ => 0xFF) =
      (some .ok, fun _ => 0xFF) ∧
    (fwOtaVerifyImage 16 erasedImageDesc).run (idealFlash 256)
        (Memory.program (fun _ => 0xFF) 17 [0x00, 0x12]) =
      (some .errCorrupted, Memory.program (fun _ => 0xFF) 17 [0x00, 0x12]) := by
  obtain ⟨hexact, hdetect⟩ := fwOtaVerifyImage_exact (idealFlash 256) (fun _ _ _ => rfl) 16
    erasedImageDesc (by decide) (by decide)
  have hok : (fwOtaVerifyImage 16 erasedImageDesc).run (idealFlash 256) (fun _ => 0xFF) =
      (some .ok, fun _ => 0xFF) := by
    rw [hexact, if_pos (by decide +kernel)]
  refine ⟨hok, hdetect _ _ 17 hok (fun x _ _ hx => ?_) ⟨17, by decide, by decide, by decide⟩⟩
  by_contra hout
  exact hx (Memory.program_of_outside (by simp only [List.length_cons, List.length_nil]; omega))

end Verify

end ZeroEmbedded.Ota
