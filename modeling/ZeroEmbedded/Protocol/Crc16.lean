import ZeroEmbedded.Protocol.RustProtocol
import ZeroEmbedded.Storage.NvsChecksum

/-!
# The three checksums of 16 bits

The frame codec reads a literal table, the key-value store runs a bit loop, and
the crate computes its table. All three divide by `X ^ 16 + X ^ 12 + X ^ 5 + 1`.
-/

namespace ZeroEmbedded.ZeroWire

open Foundation Nvs

/-- Each literal of the table is the remainder of its index in the upper byte. -/
theorem sCrc16Table_getD (byte : UInt8) :
    sCrc16Table.getD byte.toNat 0 = crc16Bit^[8] (byte.toUInt16 <<< 8) := by
  rw [← RustProtocol.generateCrcTable_eq, RustProtocol.generateCrcTable_eq_map,
    List.getD_eq_getElem _ _ (by rw [List.length_map, List.length_range]; exact byte.toNat_lt),
    List.getElem_map, List.getElem_range, UInt16.ofNat_uInt8ToNat]
  rfl

/-- A round over the table is eight rounds over the bits. -/
theorem crc16TableStep_eq_crc16Byte (crc : UInt16) (byte : UInt8) :
    crc16TableStep crc byte = crc16Byte crc byte := by
  have htop : ((crc >>> 8).toUInt8 ^^^ byte).toBitVec =
      (crc.toBitVec >>> (16 - 8)).setWidth 8 ^^^ byte.toBitVec := rfl
  have hentry : (crc16Bit^[8] (((crc >>> 8).toUInt8 ^^^ byte).toUInt16 <<< 8)).toBitVec =
      (CyclicCode.round crc16Generator)^[8]
        (CyclicCode.top 16 ((crc >>> 8).toUInt8 ^^^ byte).toBitVec) :=
    (Function.Semiconj.iterate_right crc16Bit_toBitVec 8) _
  apply UInt16.toBitVec_inj.mp
  rw [crc16Byte_toBitVec, CyclicCode.step_eq_shift_xor (by omega), ← htop, ← hentry,
    crc16TableStep, ← RustProtocol.index_eq, sCrc16Table_getD]
  rfl

theorem foldl_crc16TableStep (crc : UInt16) (data : List UInt8) :
    data.foldl crc16TableStep crc = crc16Step crc data := by
  induction data generalizing crc with
  | nil => rfl
  | cons byte data ih =>
      rw [List.foldl_cons, ih, crc16TableStep_eq_crc16Byte]
      rfl

theorem fwCrc16Ccitt_eq_crc16Step {data : List UInt8} (h : data ≠ []) :
    fwCrc16Ccitt data = crc16Step 0xFFFF data := by
  rw [fwCrc16Ccitt, if_neg (List.length_eq_zero_iff.not.mpr h), foldl_crc16TableStep]

theorem crc16Step_append (crc : UInt16) (first second : List UInt8) :
    crc16Step crc (first ++ second) = crc16Step (crc16Step crc first) second :=
  List.foldl_append

section Remainder

open Polynomial CyclicCode

theorem generator_crc16 :
    generator crc16Generator = (X ^ 16 + X ^ 12 + X ^ 5 + 1 : (ZMod 2)[X]) := by
  have hbits : ∀ i < 16, coefficient (crc16Generator.getLsbD i) =
      (if i = 12 then 1 else 0) + (if i = 5 then 1 else 0) + (if i = 0 then 1 else 0) := by
    decide
  have hpoly : poly crc16Generator = (X ^ 12 + X ^ 5 + 1 : (ZMod 2)[X]) := by
    ext i
    rw [coeff_poly, coeff_add, coeff_add, coeff_X_pow, coeff_X_pow, coeff_one]
    rcases Nat.lt_or_ge i 16 with hlt | hge
    · exact hbits i hlt
    · have h12 : i ≠ 12 := by omega
      have h5 : i ≠ 5 := by omega
      have h0 : i ≠ 0 := by omega
      rw [BitVec.getLsbD_of_ge _ _ hge, if_neg h12, if_neg h5, if_neg h0]
      rfl
  rw [generator, hpoly, ← add_assoc, ← add_assoc]

/-- The bytes of a message as a polynomial, the most significant bit first. -/
noncomputable def messagePoly (data : List UInt8) : (ZMod 2)[X] :=
  message (data.map UInt8.toBitVec)

theorem poly_crc16Step (crc : UInt16) (data : List UInt8) :
    poly (crc16Step crc data).toBitVec =
      (X ^ 16 * messagePoly data + X ^ (8 * data.length) * poly crc.toBitVec) %ₘ
        (X ^ 16 + X ^ 12 + X ^ 5 + 1) := by
  rw [crc16Step_toBitVec, poly_foldl_step (by omega) (by omega), generator_crc16,
    List.length_map]
  rfl

/-- On data that is not empty the three checksums are the same remainder, for the start
value `0xFFFF`, and the bit loop can be continued. -/
theorem crc16_agrees (data : List UInt8) (h : data ≠ []) (crc : UInt16)
    (first second : List UInt8) :
    (crc16Step 0xFFFF data = fwCrc16Ccitt data ∧
      RustProtocol.crc16Ccitt data = some (fwCrc16Ccitt data) ∧
      poly (fwCrc16Ccitt data).toBitVec =
        (X ^ 16 * messagePoly data + X ^ (8 * data.length) * poly 0xFFFF#16) %ₘ
          (X ^ 16 + X ^ 12 + X ^ 5 + 1)) ∧
    crc16Step crc (first ++ second) = crc16Step (crc16Step crc first) second := by
  have hstep := fwCrc16Ccitt_eq_crc16Step h
  refine ⟨⟨hstep.symm, RustProtocol.crc16Ccitt_eq_fwCrc16Ccitt h, ?_⟩,
    crc16Step_append crc first second⟩
  rw [hstep]
  exact poly_crc16Step 0xFFFF data

theorem crc16_agrees_sample :
    (crc16Step 0xFFFF [0x31, 0x32] = fwCrc16Ccitt [0x31, 0x32] ∧
      RustProtocol.crc16Ccitt [0x31, 0x32] = some (fwCrc16Ccitt [0x31, 0x32]) ∧
      poly (fwCrc16Ccitt [0x31, 0x32]).toBitVec =
        (X ^ 16 * messagePoly [0x31, 0x32] + X ^ (8 * 2) * poly 0xFFFF#16) %ₘ
          (X ^ 16 + X ^ 12 + X ^ 5 + 1)) ∧
    crc16Step 0 ([0x31] ++ [0x32]) = crc16Step (crc16Step 0 [0x31]) [0x32] :=
  crc16_agrees [0x31, 0x32] (List.cons_ne_nil _ _) 0 [0x31] [0x32]

end Remainder

end ZeroEmbedded.ZeroWire
