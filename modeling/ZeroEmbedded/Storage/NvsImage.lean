import ZeroEmbedded.Foundation.KeyedLog
import ZeroEmbedded.Storage.Nvs

/-!
# Records and logs as they lie in a bank

A record is a header together with the aligned payload behind it. A bank holds
a sector header, the records of its log and erased cells. `LogAt` is the view
a loop has of the bank when it stands in front of some records.
-/

namespace ZeroEmbedded.Nvs

open Foundation

/-- Clearing the two low bits of a 32-bit value rounds it down to a multiple of four. -/
theorem land_mask4 {y : Nat} (h : y < 2 ^ 32) : y &&& 0xFFFFFFFC = y / 4 * 4 := by
  have hmask : (0xFFFFFFFC : Nat) = (2 ^ 30 - 1) <<< 2 := rfl
  have hshift : y / 4 * 4 = (y >>> 2) <<< 2 := by
    simp [Nat.shiftRight_eq_div_pow, Nat.shiftLeft_eq]
  rw [hmask, hshift]
  apply Nat.eq_of_testBit_eq
  intro i
  rw [Nat.testBit_and, Nat.testBit_shiftLeft, Nat.testBit_shiftLeft, Nat.testBit_two_pow_sub_one,
    Nat.testBit_shiftRight]
  by_cases h2 : 2 ≤ i
  · have hi : 2 + (i - 2) = i := by omega
    by_cases h32 : i < 32
    · have : i - 2 < 30 := by omega
      simp [h2, hi, this]
    · have hbit : y.testBit i = false :=
        Nat.testBit_lt_two_pow
          (Nat.lt_of_lt_of_le h (Nat.pow_le_pow_right (by decide) (by omega)))
      simp [hi, hbit]
  · simp [h2]

theorem alignUp4_eq {x : Nat} (h : x < 2 ^ 17) : alignUp4 x = (x + 3) / 4 * 4 := by
  have hx : u32 x = x := u32_of_lt (by omega)
  have hy : u32 (x + 3) = x + 3 := u32_of_lt (by omega)
  rw [alignUp4, hx, hy, land_mask4 (by omega)]

@[simp] theorem RecordHdr.bytes_length (h : RecordHdr) : h.bytes.length = 8 := rfl

@[simp] theorem SectorHdr.bytes_length (h : SectorHdr) : h.bytes.length = 16 := rfl

@[simp] theorem RecordHdr.ofBytes_bytes (h : RecordHdr) : RecordHdr.ofBytes h.bytes = h := by
  simp [RecordHdr.ofBytes, RecordHdr.bytes, le16]

@[simp] theorem SectorHdr.ofBytes_bytes (h : SectorHdr) : SectorHdr.ofBytes h.bytes = h := by
  simp [SectorHdr.ofBytes, SectorHdr.bytes, le32]

theorem RecordHdr.bytes_ofBytes {b : List UInt8} (h : b.length = recordHdrSize) :
    (RecordHdr.ofBytes b).bytes = b := by
  obtain ⟨b0, b1, b2, b3, b4, b5, b6, b7, rfl⟩ :
      ∃ b0 b1 b2 b3 b4 b5 b6 b7, b = [b0, b1, b2, b3, b4, b5, b6, b7] := by
    match b, h with
    | [b0, b1, b2, b3, b4, b5, b6, b7], _ => exact ⟨b0, b1, b2, b3, b4, b5, b6, b7, rfl⟩
  simp only [RecordHdr.bytes, RecordHdr.ofBytes, le16_ofLe16]
  rfl

theorem RecordHdr.ofBytes_erased_key :
    (RecordHdr.ofBytes (List.replicate 8 0xFF)).key = fwNvsKeyEmpty := by decide

theorem SectorHdr.ofBytes_erased_valid :
    (SectorHdr.ofBytes (List.replicate 16 0xFF)).valid = false := by decide

@[simp] theorem activeHdr_valid (sequence : UInt32) : (activeHdr sequence).valid = true := by
  simp [activeHdr, SectorHdr.valid]

@[simp] theorem activeHdr_sequence (sequence : UInt32) :
    (activeHdr sequence).sequence = sequence := rfl

/-- A record of a bank: its header and the aligned payload, for a key in use. -/
structure NvsRecord where
  hdr : RecordHdr
  body : List UInt8
  body_length : body.length = alignUp4 hdr.length.toNat
  key_ne : hdr.key ≠ fwNvsKeyEmpty

namespace NvsRecord

def key (r : NvsRecord) : UInt16 := r.hdr.key

def length (r : NvsRecord) : Nat := r.hdr.length.toNat

/-- The header is that of a value, not of a tombstone. -/
def valid (r : NvsRecord) : Bool := r.hdr.status == fwNvsStatusValid

def payload (r : NvsRecord) : List UInt8 := r.body.take r.length

def bytes (r : NvsRecord) : List UInt8 := r.hdr.bytes ++ r.body

def size (r : NvsRecord) : Nat := r.bytes.length

theorem body_length_eq (r : NvsRecord) : r.body.length = (r.length + 3) / 4 * 4 := by
  rw [r.body_length, alignUp4_eq]
  · rfl
  · have := r.hdr.length.toNat_lt
    omega

theorem size_eq (r : NvsRecord) : r.size = 8 + (r.length + 3) / 4 * 4 := by
  simp [size, bytes, body_length_eq]

theorem length_lt (r : NvsRecord) : r.length < 2 ^ 16 := r.hdr.length.toNat_lt

theorem size_ge (r : NvsRecord) : 8 + r.length ≤ r.size := by
  rw [size_eq]
  omega

theorem size_le (r : NvsRecord) : r.size ≤ 65544 := by
  have := r.length_lt
  rw [size_eq]
  omega

/-- The size that the loops compute from the header. -/
theorem recTotal_hdr (r : NvsRecord) : recTotal r.hdr = r.size := by
  have hs := r.size_le
  rw [recTotal, ← r.body_length, recordHdrSize]
  have : 8 + r.body.length = r.size := by simp [size, bytes]
  rw [this, u32_of_lt (by omega)]

theorem payload_length (r : NvsRecord) : r.payload.length = r.length := by
  have := r.body_length_eq
  simp only [payload, List.length_take]
  omega

/-- The checksum field fits key, length and payload. -/
def intact (r : NvsRecord) : Prop :=
  r.hdr.crc16 = calcRecordCrc r.hdr.key r.hdr.length r.payload

end NvsRecord

/-- Total size of the records of a log. -/
def logSize (log : List NvsRecord) : Nat := (log.map NvsRecord.size).sum

/-- The bytes of a log in its bank. -/
def logBytes (log : List NvsRecord) : List UInt8 := log.flatMap NvsRecord.bytes

@[simp] theorem logSize_nil : logSize [] = 0 := rfl

@[simp] theorem logSize_cons (r : NvsRecord) (log : List NvsRecord) :
    logSize (r :: log) = r.size + logSize log := by
  simp [logSize]

@[simp] theorem logSize_append (xs ys : List NvsRecord) :
    logSize (xs ++ ys) = logSize xs + logSize ys := by
  simp [logSize]

@[simp] theorem logBytes_nil : logBytes [] = [] := rfl

@[simp] theorem logBytes_cons (r : NvsRecord) (log : List NvsRecord) :
    logBytes (r :: log) = r.bytes ++ logBytes log := by
  simp [logBytes]

@[simp] theorem logBytes_append (xs ys : List NvsRecord) :
    logBytes (xs ++ ys) = logBytes xs ++ logBytes ys := by
  simp [logBytes]

@[simp] theorem logBytes_length (log : List NvsRecord) : (logBytes log).length = logSize log := by
  induction log with
  | nil => rfl
  | cons r rest ih => simp [ih, NvsRecord.size]

theorem logSize_sublist {xs ys : List NvsRecord} (h : xs.Sublist ys) :
    logSize xs ≤ logSize ys := by
  induction h with
  | slnil => exact Nat.le_refl _
  | cons r _ ih => simp only [logSize_cons]; omega
  | cons_cons r _ ih => simp only [logSize_cons]; omega

theorem length_le_logSize (log : List NvsRecord) : log.length ≤ logSize log := by
  induction log with
  | nil => simp
  | cons r rest ih =>
      have := r.size_ge
      simp only [List.length_cons, logSize_cons]
      omega

/-- Two disjoint banks inside the 32-bit address space, large enough to mount. -/
structure BankLayout where
  sectorSize : Nat
  addr : Fin 2 → Nat
  sectorSize_ge : 256 ≤ sectorSize
  addr_le : ∀ b, addr b + sectorSize ≤ 2 ^ 32
  disjoint : addr 0 + sectorSize ≤ addr 1 ∨ addr 1 + sectorSize ≤ addr 0

namespace BankLayout

variable (L : BankLayout)

theorem sectorSize_le : L.sectorSize ≤ 2 ^ 31 := by
  have h0 := L.addr_le 0
  have h1 := L.addr_le 1
  have hd := L.disjoint
  omega

theorem bank_cases (b : Fin 2) : b = 0 ∨ b = 1 := by
  revert b
  decide

theorem eq_or_other (b c : Fin 2) : c = b ∨ c = 1 - b := by
  revert b c
  decide

theorem other_other (b : Fin 2) : 1 - (1 - b) = b := by
  revert b
  decide

theorem addr_disjoint (b : Fin 2) :
    L.addr b + L.sectorSize ≤ L.addr (1 - b) ∨ L.addr (1 - b) + L.sectorSize ≤ L.addr b := by
  rcases bank_cases b with rfl | rfl
  · exact L.disjoint
  · exact L.disjoint.symm

end BankLayout

/-- Standing at offset `off` of a region, the records `log` lie ahead, then `rest`. -/
def LogAt (m : Memory) (base size off : Nat) (log : List NvsRecord) (rest : List UInt8) : Prop :=
  ∃ pre : List UInt8, pre.length = off ∧ m.Holds base size (pre ++ logBytes log ++ rest)

namespace LogAt

variable {m m' : Memory} {base size off : Nat} {log : List NvsRecord} {r : NvsRecord}
  {rest : List UInt8}

theorem fits (h : LogAt m base size off log rest) : off + logSize log + rest.length ≤ size := by
  obtain ⟨pre, rfl, h⟩ := h
  simpa [Nat.add_assoc] using h.fits

theorem tail (h : LogAt m base size off (r :: log) rest) :
    LogAt m base size (off + r.size) log rest := by
  obtain ⟨pre, rfl, h⟩ := h
  exact ⟨pre ++ r.bytes, by simp [NvsRecord.size], by simpa using h⟩

theorem congr (h : LogAt m base size off log rest)
    (he : ∀ x, base ≤ x → x < base + size → m' x = m x) : LogAt m' base size off log rest := by
  obtain ⟨pre, hpre, h⟩ := h
  exact ⟨pre, hpre, h.congr he⟩

/-- The bytes of the records ahead are all that the view says of them. -/
theorem of_bytes (hfit : off + logSize log ≤ size)
    (h : m.bytesAt (base + off) (logSize log) = logBytes log) :
    ∃ rest, LogAt m base size off log rest := by
  refine ⟨m.bytesAt (base + (off + logSize log)) (size - (off + logSize log)), m.bytesAt base off,
    Memory.bytesAt_length _ _ _, ?_⟩
  have hself := Memory.Holds.bytesAt m base size
  have hsize : size = off + logSize log + (size - (off + logSize log)) := by omega
  rw [← h, ← Memory.bytesAt_append, ← Memory.bytesAt_append, ← hsize]
  exact hself

theorem bytesAt_eq (h : LogAt m base size off log rest) :
    m.bytesAt (base + off) (logSize log) = logBytes log := by
  obtain ⟨pre, rfl, h⟩ := h
  exact h.bytesAt_mid rfl (logBytes_length log).symm

/-- The header in front is the header of the first record. -/
theorem head_hdr (h : LogAt m base size off (r :: log) rest) :
    RecordHdr.ofBytes (m.bytesAt (base + off) recordHdrSize) = r.hdr := by
  obtain ⟨pre, rfl, h⟩ := h
  have hsplit : pre ++ logBytes (r :: log) ++ rest =
      pre ++ r.hdr.bytes ++ (r.body ++ logBytes log ++ rest) := by
    simp [NvsRecord.bytes]
  rw [hsplit] at h
  rw [h.bytesAt_mid rfl (n := recordHdrSize) rfl, RecordHdr.ofBytes_bytes]

/-- The bytes of the first record, from any offset inside it. -/
theorem head_slice (h : LogAt m base size off (r :: log) rest) {i n : Nat}
    (hi : i + n ≤ r.size) :
    m.bytesAt (base + (off + i)) n = (r.bytes.drop i).take n := by
  obtain ⟨pre, rfl, h⟩ := h
  have hlen : ((r.bytes.drop i).take n).length = n := by
    simp only [List.length_take, List.length_drop]
    have : r.bytes.length = r.size := rfl
    omega
  have hsplit : pre ++ logBytes (r :: log) ++ rest = (pre ++ r.bytes.take i) ++
      (r.bytes.drop i).take n ++ ((r.bytes.drop i).drop n ++ logBytes log ++ rest) := by
    conv_lhs => rw [logBytes_cons, ← List.take_append_drop i r.bytes,
      ← List.take_append_drop n (r.bytes.drop i)]
    simp only [List.append_assoc]
  have hpre : (pre ++ r.bytes.take i).length = pre.length + i := by
    simp only [List.length_append, List.length_take]
    have : r.bytes.length = r.size := rfl
    omega
  rw [hsplit] at h
  exact h.bytesAt_mid (by rw [hpre]) hlen.symm

theorem head_bytes (h : LogAt m base size off (r :: log) rest) :
    m.bytesAt (base + off) r.size = r.bytes := by
  have hslice := h.head_slice (Nat.le_of_eq (Nat.zero_add r.size))
  simpa [NvsRecord.size] using hslice

theorem head_payload (h : LogAt m base size off (r :: log) rest) :
    m.bytesAt (base + (off + recordHdrSize)) r.length = r.payload := by
  have hs := r.size_ge
  rw [h.head_slice (by simpa [recordHdrSize] using hs)]
  rw [NvsRecord.bytes, recordHdrSize, List.drop_left' r.hdr.bytes_length, NvsRecord.payload]

/-- Behind the last record the cells are erased. -/
theorem nil_hdr (h : LogAt m base size off [] []) (hoff : off + recordHdrSize ≤ size) :
    (RecordHdr.ofBytes (m.bytesAt (base + off) recordHdrSize)).key = fwNvsKeyEmpty := by
  obtain ⟨pre, rfl, h⟩ := h
  rw [h.bytesAt_erased rfl (by simp) hoff]
  exact RecordHdr.ofBytes_erased_key

end LogAt

end ZeroEmbedded.Nvs
