import ZeroEmbedded.Foundation.ByteMemory
import ZeroEmbedded.Types

/-!
# Transfers from memory to memory

The functions of `dma.c`, whose transfers are copies of the processor. A block
that is aligned is copied word by word, any other one byte by byte. A rectangle
is copied line by line.

## Implementation notes

Pointers are addresses, and the offset of a line is a `fw_size_t`. A copy of the
standard library reads all of its bytes first, which is one of the things that it
may do when they overlap.
-/

namespace ZeroEmbedded.Dma

open Foundation

/-- `FW_NULL`. -/
def fwNull : Nat := 0

/-- `fw_dma_stats_t`. -/
structure FwDmaStats where
  totalTransfers : UInt32
  totalBytes : UInt32
  total2dTransfers : UInt32
  deriving DecidableEq, Repr

/-- The memory and `s_dma_stats`. -/
structure DmaState where
  memory : ByteMemory
  stats : FwDmaStats

variable (T : Target)

/-- `memcpy`. -/
def memcpy (dst src length : Nat) (memory : ByteMemory) : ByteMemory :=
  memory.copy dst src length

/-- The loop of `fw_dma_memcpy` over so many words. -/
def burst (dst src words : Nat) (memory : ByteMemory) : ByteMemory :=
  (List.range words).foldl (fun m i => m.storeWord (dst + 4 * i) (m.loadWord (src + 4 * i))) memory

/-- `fw_dma_memcpy`. -/
def fwDmaMemcpy (dst src length : Nat) (s : DmaState) : FwStatus × DmaState :=
  if dst = fwNull ∨ src = fwNull then (.errInvalidArg, s)
  else if length = 0 then (.ok, s)
  else
    (.ok,
      { memory :=
          if (dst ||| src) &&& 3 = 0 ∧ length &&& 3 = 0 then burst dst src (length >>> 2) s.memory
          else memcpy dst src length s.memory
        stats := { s.stats with
          totalTransfers := s.stats.totalTransfers + 1
          totalBytes := s.stats.totalBytes + UInt32.ofNat length } })

/-- `fw_dma_memset`. -/
def fwDmaMemset (dst : Nat) (value : UInt8) (length : Nat) (s : DmaState) : FwStatus × DmaState :=
  if dst = fwNull then (.errInvalidArg, s)
  else if length = 0 then (.ok, s)
  else
    (.ok,
      { memory := s.memory.fill dst length value
        stats := { s.stats with
          totalTransfers := s.stats.totalTransfers + 1
          totalBytes := s.stats.totalBytes + UInt32.ofNat length } })

/-- The loop of `fw_dma_copy_2d` over so many lines. -/
def copyLines (dst dstStride src srcStride widthBytes lines : Nat) (memory : ByteMemory) :
    ByteMemory :=
  (List.range lines).foldl (fun m line =>
    memcpy (dst + T.size (line * dstStride)) (src + T.size (line * srcStride)) widthBytes m) memory

/-- `fw_dma_copy_2d`. -/
def fwDmaCopy2d (dst dstStride src srcStride widthBytes heightLines : Nat) (s : DmaState) :
    FwStatus × DmaState :=
  if dst = fwNull ∨ src = fwNull ∨ widthBytes = 0 ∨ heightLines = 0 then (.errInvalidArg, s)
  else if dstStride < widthBytes ∨ srcStride < widthBytes then (.errInvalidArg, s)
  else
    (.ok,
      { memory := copyLines T dst dstStride src srcStride widthBytes heightLines s.memory
        stats := {
          totalTransfers := s.stats.totalTransfers + 1
          total2dTransfers := s.stats.total2dTransfers + 1
          totalBytes := s.stats.totalBytes + UInt32.ofNat (T.size (widthBytes * heightLines)) } })

/-- A call with two checks in front of it. -/
theorem refused_of_checks {p q : Prop} [Decidable p] [Decidable q] (status : FwStatus)
    (s t : DmaState) :
    (if p then (.errInvalidArg, s) else if q then (status, s) else (FwStatus.ok, t)).1 ≠ .ok →
      (if p then (.errInvalidArg, s) else if q then (status, s) else (FwStatus.ok, t)).2 = s := by
  split
  · exact fun _ => rfl
  · split
    · exact fun _ => rfl
    · exact fun hok => absurd rfl hok

/-- A transfer that is refused changes nothing. -/
theorem fwDma_refused (s : DmaState) :
    (∀ dst src length, (fwDmaMemcpy dst src length s).1 ≠ .ok →
      (fwDmaMemcpy dst src length s).2 = s) ∧
    (∀ dst value length, (fwDmaMemset dst value length s).1 ≠ .ok →
      (fwDmaMemset dst value length s).2 = s) ∧
    ∀ dst dstStride src srcStride widthBytes heightLines,
      (fwDmaCopy2d T dst dstStride src srcStride widthBytes heightLines s).1 ≠ .ok →
      (fwDmaCopy2d T dst dstStride src srcStride widthBytes heightLines s).2 = s := by
  refine ⟨fun dst src length => ?_, fun dst value length => ?_,
    fun dst dstStride src srcStride widthBytes heightLines => ?_⟩
  · exact refused_of_checks .ok s _
  · exact refused_of_checks .ok s _
  · exact refused_of_checks .errInvalidArg s _

/-- The address of a byte in a line of a rectangle. -/
def cell (base stride x y : Nat) : Nat := base + (y * stride + x)

/-- A rectangle of a buffer in the address space. -/
structure InMemory (base stride width height : Nat) : Prop where
  not_null : base ≠ fwNull
  fits : ∀ y < height, base + (y * stride + width) ≤ T.sizeMod

/-- The rectangles have no byte in common. -/
def Apart (dst dstStride src srcStride width height : Nat) : Prop :=
  ∀ x y x' y', x < width → y < height → x' < width → y' < height →
    cell dst dstStride x y ≠ cell src srcStride x' y'

/-- The first lines of the target are those of the source, and no other byte has changed. -/
def CopiesLines (dst dstStride src srcStride width lines : Nat) (before after : ByteMemory) :
    Prop :=
  (∀ x < width, ∀ y < lines, after (cell dst dstStride x y) = before (cell src srcStride x y)) ∧
    ∀ a, (∀ x < width, ∀ y < lines, a ≠ cell dst dstStride x y) → after a = before a

variable {T} {dst dstStride src srcStride width height length : Nat} {memory : ByteMemory}

section Lines

theorem copyLines_succ (lines : Nat) :
    copyLines T dst dstStride src srcStride width (lines + 1) memory =
      memcpy (dst + T.size (lines * dstStride)) (src + T.size (lines * srcStride)) width
        (copyLines T dst dstStride src srcStride width lines memory) := by
  rw [copyLines, List.range_succ, List.foldl_append]
  rfl

theorem InMemory.size_line {base stride y : Nat} (h : InMemory T base stride width height)
    (hwidth : 0 < width) (hy : y < height) : T.size (y * stride) = y * stride := by
  have hfits := h.fits y hy
  exact Nat.mod_eq_of_lt (by omega)

/-- The lines in front of a line of the target end before it. -/
theorem cell_lt_line {base stride x y line : Nat} (hstride : width ≤ stride) (hx : x < width)
    (hy : y < line) : cell base stride x y < base + line * stride := by
  have hline := Nat.mul_le_mul_right stride (Nat.succ_le_of_lt hy)
  rw [Nat.succ_mul] at hline
  rw [cell]
  omega

theorem copyLines_copies (hdst : InMemory T dst dstStride width height)
    (hsrc : InMemory T src srcStride width height) (hdstStride : width ≤ dstStride)
    (hapart : Apart dst dstStride src srcStride width height) (hwidth : 0 < width) {lines : Nat}
    (hlines : lines ≤ height) : CopiesLines dst dstStride src srcStride width lines memory
      (copyLines T dst dstStride src srcStride width lines memory) := by
  induction lines with
  | zero => exact ⟨fun _ _ _ hy => absurd hy (Nat.not_lt_zero _), fun _ _ => rfl⟩
  | succ lines ih =>
      obtain ⟨hcopied, hframe⟩ := ih (Nat.le_of_succ_le hlines)
      rw [copyLines_succ, hdst.size_line hwidth hlines, hsrc.size_line hwidth hlines, memcpy]
      constructor
      · intro x hx y hy
        rcases Nat.lt_succ_iff_lt_or_eq.mp hy with hy | rfl
        · rw [ByteMemory.copy_outside (Or.inl (cell_lt_line hdstStride hx hy))]
          exact hcopied x hx y hy
        · -- the source of the line is not in the lines that have been written
          rw [cell, ← Nat.add_assoc, ByteMemory.copy_inside hx, Nat.add_assoc, ← cell]
          apply hframe
          intro x' hx' y' hy'
          exact (hapart x' y' x y hx' (Nat.lt_trans hy' hlines) hx hlines).symm
      · intro a ha
        rw [ByteMemory.copy_outside]
        · exact hframe a fun x hx y hy => ha x hx y (Nat.lt_succ_of_lt hy)
        · by_contra hinside
          rw [not_or, Nat.not_lt, Nat.not_le] at hinside
          obtain ⟨x, rfl⟩ := Nat.exists_eq_add_of_le hinside.1
          refine ha x (by omega) lines (Nat.lt_succ_self lines) ?_
          rw [cell, Nat.add_assoc]

end Lines

section Words

theorem burst_succ (words : Nat) : burst dst src (words + 1) memory =
    (burst dst src words memory).storeWord (dst + 4 * words)
      ((burst dst src words memory).loadWord (src + 4 * words)) := by
  rw [burst, List.range_succ, List.foldl_append]
  rfl

/-- The words of a block are its bytes. -/
theorem burst_eq_memcpy {words : Nat} (hapart : dst + 4 * words ≤ src ∨ src + 4 * words ≤ dst) :
    burst dst src words memory = memcpy dst src (4 * words) memory := by
  induction words with
  | zero =>
      funext x
      exact (ByteMemory.copy_outside (by omega)).symm
  | succ words ih =>
      rw [burst_succ, ih (by omega), ByteMemory.storeWord_loadWord, memcpy, memcpy,
        ByteMemory.copy_append (by omega)]
      rfl

/-- Without a null pointer, `fw_dma_memcpy` copies the bytes for every alignment and length. -/
theorem fwDmaMemcpy_memory (hapart : dst + length ≤ src ∨ src + length ≤ dst) (s : DmaState) :
    (fwDmaMemcpy dst src length s).2.memory =
      if dst = fwNull ∨ src = fwNull then s.memory else memcpy dst src length s.memory := by
  rw [fwDmaMemcpy]
  split
  · rfl
  · by_cases hzero : length = 0
    · rw [if_pos hzero, hzero]
      funext x
      exact (ByteMemory.copy_outside (by omega)).symm
    · rw [if_neg hzero]
      dsimp only
      split
      · next haligned =>
          have hmask : length &&& 3 = length % 4 := Nat.and_two_pow_sub_one_eq_mod length 2
          have hshift : length >>> 2 = length / 4 := Nat.shiftRight_eq_div_pow length 2
          have hwords : 4 * (length >>> 2) = length := by
            rw [hshift]
            have hrest := haligned.2
            omega
          rw [burst_eq_memcpy (by rwa [hwords]), hwords]
      · rfl

end Words

/-- `fw_dma_copy_2d` writes the lines of its target and nothing else, and `fw_dma_memcpy` gives the
same memory for words as for bytes. -/
theorem fwDma_copies (hdst : InMemory T dst dstStride width height)
    (hsrc : InMemory T src srcStride width height) (hdstStride : width ≤ dstStride)
    (hsrcStride : width ≤ srcStride) (hapart : Apart dst dstStride src srcStride width height)
    (s : DmaState) :
    CopiesLines dst dstStride src srcStride width height s.memory
        (fwDmaCopy2d T dst dstStride src srcStride width height s).2.memory ∧
      ∀ target source length (s : DmaState), target + length ≤ source ∨ source + length ≤ target →
        (fwDmaMemcpy target source length s).2.memory =
          if target = fwNull ∨ source = fwNull then s.memory
          else memcpy target source length s.memory := by
  refine ⟨?_, fun _ _ _ s hblocks => fwDmaMemcpy_memory hblocks s⟩
  rw [fwDmaCopy2d]
  by_cases hempty : width = 0 ∨ height = 0
  · rw [if_pos (Or.inr (Or.inr hempty))]
    constructor
    · intro x hx y hy
      omega
    · exact fun _ _ => rfl
  · have hvalid : ¬ (dst = fwNull ∨ src = fwNull ∨ width = 0 ∨ height = 0) := by
      simp only [hdst.not_null, hsrc.not_null, hempty, or_self, not_false_eq_true]
    rw [if_neg hvalid, if_neg (by omega)]
    exact copyLines_copies hdst hsrc hdstStride hapart (by omega) (Nat.le_refl height)

/-- The bytes 1 to 16 from the address 100 on. -/
def gridState : DmaState := ⟨fun a => UInt8.ofNat (a - 99), ⟨0, 0, 0⟩⟩

/-- The middle of a grid of four lines of four bytes. -/
theorem fwDma_copies_sample :
    CopiesLines 200 2 105 4 2 2 gridState.memory
        (fwDmaCopy2d ⟨4, .inl rfl⟩ 200 2 105 4 2 2 gridState).2.memory ∧
      [200, 201, 202, 203].map (fwDmaCopy2d ⟨4, .inl rfl⟩ 200 2 105 4 2 2 gridState).2.memory =
        [6, 7, 10, 11] := by
  have hdst : InMemory ⟨4, .inl rfl⟩ 200 2 2 2 := ⟨by decide, by decide⟩
  have hsrc : InMemory ⟨4, .inl rfl⟩ 105 4 2 2 := ⟨by decide, by decide⟩
  have hapart : Apart 200 2 105 4 2 2 := by
    intro x y x' y' hx hy hx' hy'
    rw [cell, cell]
    omega
  exact ⟨(fwDma_copies hdst hsrc (by decide) (by decide) hapart gridState).1, by decide⟩

end ZeroEmbedded.Dma
