import ZeroEmbedded.Foundation.Checksum
import ZeroEmbedded.Types

/-!
# The crash dump

`crash_dump.c` with the buffer behind `s_retention_ptr` as the state. The
checksum shifts the sum by one bit for every word. A word that is far from the
end therefore loses its upper bits, and a change of these bits goes unnoticed.
-/

namespace ZeroEmbedded.CrashDump

open Foundation.Checksum

/-- `FW_CRASH_DUMP_MAGIC`. -/
def fwCrashDumpMagic : BitVec 32 := 0x43525348#32

/-- `fw_crash_dump_t`. -/
structure FwCrashDump where
  magic : BitVec 32
  timestampMs : BitVec 32
  r0 : BitVec 32
  r1 : BitVec 32
  r2 : BitVec 32
  r3 : BitVec 32
  r12 : BitVec 32
  sp : BitVec 32
  lr : BitVec 32
  pc : BitVec 32
  xpsr : BitVec 32
  cfsr : BitVec 32
  hfsr : BitVec 32
  mmar : BitVec 32
  bfar : BitVec 32
  checksum : BitVec 32
  deriving DecidableEq, Repr

/-- The words of a dump are numbered from 0 to 15. -/
instance instNeZeroWords : NeZero 16 := ⟨by decide⟩

theorem word_lt (word : Fin 16) : word.val < 16 := word.isLt

namespace FwCrashDump

/-- The dump as `const uint32_t *`. -/
def words (d : FwCrashDump) : Vector (BitVec 32) 16 :=
  #v[d.magic, d.timestampMs, d.r0, d.r1, d.r2, d.r3, d.r12, d.sp, d.lr, d.pc, d.xpsr, d.cfsr,
    d.hfsr, d.mmar, d.bfar, d.checksum]

def ofWords (v : Vector (BitVec 32) 16) : FwCrashDump :=
  ⟨v.get 0, v.get 1, v.get 2, v.get 3, v.get 4, v.get 5, v.get 6, v.get 7, v.get 8, v.get 9,
    v.get 10, v.get 11, v.get 12, v.get 13, v.get 14, v.get 15⟩

/-- The words between the magic and the checksum. -/
def dataWords (d : FwCrashDump) : List (BitVec 32) := (d.words.toList.take 15).drop 1

/-- One bit of the memory has changed. -/
def flipBit (d : FwCrashDump) (word : Fin 16) (bit : Fin 32) : FwCrashDump :=
  ofWords (d.words.set word (d.words.get word ^^^ 1#32 <<< bit.val) (word_lt word))

end FwCrashDump

/-- `calculate_checksum`. -/
def calculateChecksum (dump : FwCrashDump) : BitVec 32 :=
  (dump.words.toList.take 15).foldl (fun sum word => sum <<< 1 ^^^ word) 0xA5A55A5A#32

/-- `fw_crash_dump_capture`. -/
def fwCrashDumpCapture (retention : FwCrashDump) : Option FwCrashDump → FwStatus × FwCrashDump
  | none => (.errInvalidArg, retention)
  | some dump =>
      let copied := { dump with magic := fwCrashDumpMagic }
      (.ok, { copied with checksum := calculateChecksum copied })

/-- `fw_crash_dump_has_valid`. -/
def fwCrashDumpHasValid (retention : FwCrashDump) : Bool :=
  if retention.magic ≠ fwCrashDumpMagic then false
  else retention.checksum = calculateChecksum retention

/-- `fw_crash_dump_get`, with what it leaves in `*out_dump`. -/
def fwCrashDumpGet (retention : FwCrashDump) : Option FwCrashDump → FwStatus × Option FwCrashDump
  | none => (.errInvalidArg, none)
  | some out =>
      if ¬ fwCrashDumpHasValid retention then (.errNotFound, some out) else (.ok, some retention)

/-- A captured dump is handed out with its data words. -/
def Retrieved (dump retention out : FwCrashDump) : Prop :=
  ∃ kept got, fwCrashDumpCapture retention (some dump) = (.ok, kept) ∧
    fwCrashDumpGet kept (some out) = (.ok, some got) ∧ got.dataWords = dump.dataWords

/-- The flipped bit of the captured dump is noticed, and nothing is handed out. -/
def Noticed (dump retention out : FwCrashDump) (word : Fin 16) (bit : Fin 32) : Prop :=
  let kept := (fwCrashDumpCapture retention (some dump)).2.flipBit word bit
  fwCrashDumpHasValid kept = false ∧ fwCrashDumpGet kept (some out) = (.errNotFound, some out)

/-- The bit lies in the magic or in the checksum, or the words between its own and the checksum do
not shift it out of the sum. -/
def Covered (word : Fin 16) (bit : Fin 32) : Prop :=
  word = 0 ∨ word = 15 ∨ bit.val + (14 - word.val) < 32

section Flip

variable {d : FwCrashDump} {word : Fin 16} {bit : Fin 32}

theorem words_ofWords (v : Vector (BitVec 32) 16) : (FwCrashDump.ofWords v).words = v := by
  apply Vector.ext
  intro i hi
  interval_cases i <;> rfl

theorem words_flipBit (d : FwCrashDump) (word : Fin 16) (bit : Fin 32) :
    (d.flipBit word bit).words =
      d.words.set word (d.words.get word ^^^ 1#32 <<< bit.val) (word_lt word) :=
  words_ofWords _

/-- A word of the dump after a bit was flipped. -/
theorem get_flipBit (d : FwCrashDump) (word i : Fin 16) (bit : Fin 32) :
    (d.flipBit word bit).words.get i =
      if word = i then d.words.get word ^^^ 1#32 <<< bit.val else d.words.get i := by
  rw [words_flipBit]
  change (d.words.set word.val _ word.isLt)[i.val] = _
  rw [Vector.getElem_set]
  simp only [Fin.ext_iff]
  rfl

theorem magic_flipBit_of_ne (hword : word ≠ 0) : (d.flipBit word bit).magic = d.magic :=
  (get_flipBit d word 0 bit).trans (if_neg hword)

theorem checksum_flipBit_of_ne (hword : word ≠ 15) : (d.flipBit word bit).checksum = d.checksum :=
  (get_flipBit d word 15 bit).trans (if_neg hword)

/-- A flipped bit changes its word. -/
theorem xor_bit_ne (x : BitVec 32) (bit : Fin 32) : x ^^^ 1#32 <<< bit.val ≠ x := by
  intro heq
  have hzero : (1#32 <<< bit.val) <<< 0 = 0#32 := by
    rw [BitVec.shiftLeft_zero]
    exact (BitVec.xor_right_inj x).mp (heq.trans (BitVec.xor_zero).symm)
  have hle := one_shiftLeft_eq_zero_iff.mp hzero
  omega

/-- What a flipped bit of the magic or of a data word leaves in the checksum. -/
theorem calculateChecksum_flipBit (d : FwCrashDump) (bit : Fin 32) (hword : word.val < 15) :
    calculateChecksum (d.flipBit word bit) =
      calculateChecksum d ^^^ (1#32 <<< bit.val) <<< (14 - word.val) := by
  have hin : word.val < (d.words.toList.take 15).length := by simpa using hword
  have hset : (d.flipBit word bit).words.toList.take 15 = (d.words.toList.take 15).set word.val
      ((d.words.toList.take 15)[word.val] ^^^ 1#32 <<< bit.val) := by
    rw [words_flipBit, Vector.toList_set, List.take_set, Vector.get_eq_getElem]
    simp
  rw [calculateChecksum, hset]
  have hfold := foldl_shiftXor_set (d.words.toList.take 15) 0xA5A55A5A#32 (1#32 <<< bit.val) hin
  rwa [List.length_take, Vector.length_toList] at hfold

/-- The checksum does not depend on its own word. -/
theorem calculateChecksum_flipBit_checksum (d : FwCrashDump) (bit : Fin 32) :
    calculateChecksum (d.flipBit 15 bit) = calculateChecksum d := by
  have hset : (d.flipBit 15 bit).words.toList.take 15 = d.words.toList.take 15 := by
    rw [words_flipBit, Vector.toList_set, List.take_set]
    exact List.set_eq_of_length_le (List.length_take_le 15 _)
  rw [calculateChecksum, hset]
  rfl

end Flip

section Capture

variable {kept out : FwCrashDump} {word : Fin 16} {bit : Fin 32}

/-- What `fw_crash_dump_capture` leaves behind. -/
structure Captured (dump kept : FwCrashDump) : Prop where
  magic : kept.magic = fwCrashDumpMagic
  checksum : kept.checksum = calculateChecksum kept
  data : kept.dataWords = dump.dataWords

theorem fwCrashDumpCapture_captured (dump retention : FwCrashDump) :
    ∃ kept, fwCrashDumpCapture retention (some dump) = (.ok, kept) ∧ Captured dump kept :=
  ⟨_, rfl, rfl, rfl, rfl⟩

theorem fwCrashDumpHasValid_iff :
    fwCrashDumpHasValid kept = true ↔
      kept.magic = fwCrashDumpMagic ∧ kept.checksum = calculateChecksum kept := by
  by_cases hmagic : kept.magic = fwCrashDumpMagic <;> simp [fwCrashDumpHasValid, hmagic]

/-- A captured dump is handed out. -/
theorem fwCrashDump_retrieved (dump retention out : FwCrashDump) :
    Retrieved dump retention out := by
  obtain ⟨kept, hcapture, hkept⟩ := fwCrashDumpCapture_captured dump retention
  have hvalid : fwCrashDumpHasValid kept = true :=
    fwCrashDumpHasValid_iff.mpr ⟨hkept.magic, hkept.checksum⟩
  refine ⟨kept, kept, hcapture, ?_, hkept.data⟩
  rw [fwCrashDumpGet, if_neg (not_not_intro hvalid)]

/-- A captured dump with a flipped bit is still valid exactly when the checksum does not see the
bit. -/
theorem Captured.hasValid_flipBit_iff {dump : FwCrashDump} (h : Captured dump kept) :
    fwCrashDumpHasValid (kept.flipBit word bit) = true ↔ ¬ Covered word bit := by
  rw [fwCrashDumpHasValid_iff, Covered]
  by_cases hfirst : word = 0
  · subst hfirst
    have hmagic : (kept.flipBit 0 bit).magic = kept.magic ^^^ 1#32 <<< bit.val :=
      (get_flipBit kept 0 0 bit).trans (if_pos rfl)
    rw [hmagic, ← h.magic]
    exact iff_of_false (fun hvalid => xor_bit_ne _ _ hvalid.1) (not_not_intro (Or.inl rfl))
  by_cases hlast : word = 15
  · subst hlast
    have hchecksum : (kept.flipBit 15 bit).checksum = kept.checksum ^^^ 1#32 <<< bit.val :=
      (get_flipBit kept 15 15 bit).trans (if_pos rfl)
    rw [calculateChecksum_flipBit_checksum, hchecksum, ← h.checksum]
    exact iff_of_false (fun hvalid => xor_bit_ne _ _ hvalid.2)
      (not_not_intro (Or.inr (Or.inl rfl)))
  · -- a data word: the sum changes unless the bit is shifted out
    have hword : word.val < 15 := by
      have hne : word.val ≠ 15 := fun heq => hlast (Fin.ext heq)
      omega
    rw [magic_flipBit_of_ne hfirst, checksum_flipBit_of_ne hlast,
      calculateChecksum_flipBit kept bit hword, h.checksum]
    have hsum : calculateChecksum kept =
        calculateChecksum kept ^^^ (1#32 <<< bit.val) <<< (14 - word.val) ↔
          (1#32 <<< bit.val) <<< (14 - word.val) = 0#32 := by
      constructor
      · intro heq
        exact (BitVec.xor_right_inj _).mp (heq.symm.trans (BitVec.xor_zero).symm)
      · intro hzero
        rw [hzero, BitVec.xor_zero]
    rw [hsum, one_shiftLeft_eq_zero_iff]
    simp only [h.magic, true_and, hfirst, hlast, false_or, Nat.not_lt]

end Capture

/-- A captured dump is handed out, and a flipped bit of it is noticed, exactly when the bit is
covered. -/
theorem fwCrashDump_intact_iff (dump retention out : FwCrashDump) (word : Fin 16) (bit : Fin 32) :
    Retrieved dump retention out ∧ Noticed dump retention out word bit ↔ Covered word bit := by
  rw [and_iff_right (fwCrashDump_retrieved dump retention out)]
  obtain ⟨kept, hcapture, hkept⟩ := fwCrashDumpCapture_captured dump retention
  have hiff : fwCrashDumpHasValid (kept.flipBit word bit) = true ↔ ¬ Covered word bit :=
    hkept.hasValid_flipBit_iff
  rw [Noticed, hcapture]
  constructor
  · rintro ⟨hinvalid, -⟩
    by_contra hcovered
    rw [hiff.mpr hcovered] at hinvalid
    exact Bool.noConfusion hinvalid
  · intro hcovered
    have hinvalid : fwCrashDumpHasValid (kept.flipBit word bit) = false :=
      Bool.eq_false_iff.mpr fun hvalid => hiff.mp hvalid hcovered
    refine ⟨hinvalid, ?_⟩
    rw [fwCrashDumpGet, if_pos (Bool.eq_false_iff.mp hinvalid)]

/-- A dump of zeros. -/
def zeroDump : FwCrashDump := FwCrashDump.ofWords (Vector.replicate 16 0#32)

/-- A flip of the top bit of the timestamp goes unnoticed. -/
theorem fwCrashDump_misses_flip :
    ¬ ∀ (dump retention out : FwCrashDump) (word : Fin 16) (bit : Fin 32),
      Retrieved dump retention out ∧ Noticed dump retention out word bit := by
  intro hclaim
  have hvalid : fwCrashDumpHasValid
      ((fwCrashDumpCapture zeroDump (some zeroDump)).2.flipBit 1 31) = true := by decide
  have hinvalid := (hclaim zeroDump zeroDump zeroDump 1 31).2.1
  rw [hvalid] at hinvalid
  exact Bool.noConfusion hinvalid

end ZeroEmbedded.CrashDump
