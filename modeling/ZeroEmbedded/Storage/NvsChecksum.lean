import ZeroEmbedded.Foundation.Checksum
import ZeroEmbedded.Foundation.CyclicCode
import ZeroEmbedded.Storage.Nvs

/-!
# The checksum of a record

The bit loop of `crc16_step` is the division by the generator `0x1021`, so two
bytes in a row can be recovered from the checksum before and behind them.
-/

namespace ZeroEmbedded.Nvs

open Foundation

/-- The generator of `crc16_step`, without its leading bit. -/
def crc16Generator : BitVec 16 := 0x1021#16

theorem crc16Generator_low : crc16Generator.getLsbD 0 = true := rfl

theorem topBit_iff (crc : UInt16) : crc &&& 0x8000 ≠ 0 ↔ crc.toBitVec.msb = true := by
  have hmask : (0x8000 : UInt16).toBitVec = BitVec.twoPow 16 15 := by decide
  rw [ne_eq, ← UInt16.toBitVec_inj, UInt16.toBitVec_and, hmask, BitVec.and_twoPow,
    BitVec.msb_eq_getLsbD_last]
  cases crc.toBitVec.getLsbD (16 - 1) <;> decide

theorem crc16Bit_toBitVec (crc : UInt16) :
    (crc16Bit crc).toBitVec = CyclicCode.round crc16Generator crc.toBitVec := by
  rw [crc16Bit, CyclicCode.round]
  split
  · next h => rw [if_pos ((topBit_iff crc).mp h)]; rfl
  · next h => rw [if_neg fun ht => h ((topBit_iff crc).mpr ht), BitVec.xor_zero]; rfl

theorem crc16Byte_toBitVec (crc : UInt16) (byte : UInt8) :
    (crc16Byte crc byte).toBitVec =
      CyclicCode.step crc16Generator crc.toBitVec byte.toBitVec :=
  (Function.Semiconj.iterate_right crc16Bit_toBitVec 8) _

theorem crc16Step_toBitVec (crc : UInt16) (data : List UInt8) :
    (crc16Step crc data).toBitVec =
      (data.map UInt8.toBitVec).foldl (CyclicCode.step crc16Generator) crc.toBitVec := by
  induction data generalizing crc with
  | nil => rfl
  | cons byte data ih =>
      rw [crc16Step, List.foldl_cons, ← crc16Step, ih, crc16Byte_toBitVec]
      rfl

/-- A step loses nothing of the checksum before it. -/
theorem crc16Byte_injective (byte : UInt8) : Function.Injective fun crc => crc16Byte crc byte := by
  intro crc crc' h
  have hstep := congrArg UInt16.toBitVec h
  dsimp only at hstep
  rw [crc16Byte_toBitVec, crc16Byte_toBitVec] at hstep
  exact UInt16.toBitVec_inj.mp (CyclicCode.step_injective crc16Generator_low _ hstep)

/-- Two steps lose nothing of their two bytes. -/
theorem crc16Step_window (crc : UInt16) (x y : List UInt8) (hlen : x.length = y.length)
    (htwo : x.length ≤ 2) (h : crc16Step crc x = crc16Step crc y) : x = y := by
  have hstep := congrArg UInt16.toBitVec h
  rw [crc16Step_toBitVec, crc16Step_toBitVec] at hstep
  have hmap := CyclicCode.foldl_step_window crc16Generator_low crc.toBitVec (by simpa using hlen)
    (by rw [List.length_map]; omega) hstep
  exact List.map_injective_iff.mpr (fun _ _ => UInt8.toBitVec_inj.mp) hmap

/-- The checksum detects a change within two neighbouring bytes. -/
theorem crc16Step_ne (crc : UInt16) {v v' : List UInt8} {i : Nat} (hlen : v.length = v'.length)
    (hburst : ∀ j, v[j]? ≠ v'[j]? → j = i ∨ j = i + 1) (hne : v ≠ v') :
    crc16Step crc v ≠ crc16Step crc v' := by
  have hchange : ∀ j, v[j]? ≠ v'[j]? → i ≤ j ∧ j < i + 2 := by
    intro j hj
    have hin := hburst j hj
    omega
  exact Checksum.foldl_ne_of_window crc16Byte_injective crc16Step_window hlen hchange hne crc

/-- The checksum of a record detects a change within two neighbouring bytes of its payload. -/
theorem calcRecordCrc_ne (key length : UInt16) {v v' : List UInt8} {i : Nat}
    (hlen : v.length = length.toNat) (hlen' : v'.length = length.toNat)
    (hburst : ∀ j, v[j]? ≠ v'[j]? → j = i ∨ j = i + 1) (hne : v ≠ v') :
    calcRecordCrc key length v ≠ calcRecordCrc key length v' := by
  have hpos : 0 < length.toNat := by
    rcases Nat.eq_zero_or_pos length.toNat with h0 | hpos
    · rw [h0] at hlen hlen'
      rw [List.length_eq_zero_iff.mp hlen, List.length_eq_zero_iff.mp hlen'] at hne
      exact absurd rfl hne
    · exact hpos
  simp only [calcRecordCrc, if_pos hpos]
  rw [← hlen, List.take_length, hlen, ← hlen', List.take_length]
  exact crc16Step_ne _ (hlen.trans hlen'.symm) hburst hne

end ZeroEmbedded.Nvs
