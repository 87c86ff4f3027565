import ZeroEmbedded.Foundation.ByteMemory
import ZeroEmbedded.Memory.Pool

/-!
# The bump arena

`arena.c`. Initialisation and allocation only compute addresses; where
assertions are enabled, a release fills the released bytes of the buffer.
-/

namespace ZeroEmbedded.Memory

open Foundation

/-- `fw_arena_t`. -/
structure FwArena where
  buffer : Nat
  capacity : Nat
  offset : Nat
  peakUsed : Nat
  deriving DecidableEq, Repr

/-- `fw_arena_init`. -/
def fwArenaInit (buffer bufferSize : Nat) : Except FwStatus FwArena :=
  if buffer = fwNull ∨ bufferSize = 0 then .error .errInvalidArg
  else .ok { buffer := buffer, capacity := bufferSize, offset := 0, peakUsed := 0 }

/-- The bytes between the offset of an arena and the next aligned address. -/
def FwArena.padding (T : Target) (arena : FwArena) (alignment : Nat) : Nat :=
  let currPtr := T.size (arena.buffer + arena.offset)
  T.sizeSub (T.alignUp currPtr alignment) currPtr

/-- The part of `fw_arena_alloc` behind the check of the alignment. -/
def FwArena.bump (T : Target) (arena : FwArena) (size alignment : Nat) : Nat × FwArena :=
  let padding := arena.padding T alignment
  let available := T.sizeSub arena.capacity arena.offset
  if padding > available ∨ size > T.sizeSub available padding then (fwNull, arena)
  else
    let offset := T.size (arena.offset + T.size (padding + size))
    (T.alignUp (T.size (arena.buffer + arena.offset)) alignment,
      { arena with
        offset := offset
        peakUsed := if offset > arena.peakUsed then offset else arena.peakUsed })

/-- `fw_arena_alloc`. -/
def fwArenaAlloc (T : Target) (arena : FwArena) (size alignment : Nat) : Nat × FwArena :=
  if size = 0 then (fwNull, arena)
  else if alignment = 0 then arena.bump T size T.ptrSize
  else if alignment &&& (alignment - 1) ≠ 0 then (fwNull, arena)
  else arena.bump T size alignment

/-- `fw_arena_mark`. -/
def fwArenaMark (arena : FwArena) : Nat := arena.offset

/-- `fw_arena_rewind`, and the memory after it; `poison` is `ZERO_ENABLE_ASSERT`. -/
def fwArenaRewind (T : Target) (poison : Bool) (arena : FwArena) (mark : Nat) (m : ByteMemory) :
    FwArena × ByteMemory :=
  if mark ≤ arena.offset then
    let m := if poison then
        m.fill (arena.buffer + mark) (T.sizeSub arena.offset mark) 0xDD
      else m
    ({ arena with offset := mark }, m)
  else (arena, m)

/-- `fw_arena_reset`, and the memory after it. -/
def fwArenaReset (poison : Bool) (arena : FwArena) (m : ByteMemory) : FwArena × ByteMemory :=
  let m := if poison then m.fill arena.buffer arena.offset 0xDD else m
  ({ arena with offset := 0 }, m)

namespace FwArena

/-- An arena inside of a buffer that does not wrap around the address space. -/
structure Valid (T : Target) (arena : FwArena) : Prop where
  buffer_pos : 0 < arena.buffer
  buffer_end : arena.buffer + arena.capacity < T.sizeMod
  offset_le : arena.offset ≤ arena.capacity

variable {T : Target} {arena : FwArena} {size alignment : Nat}

theorem init_eq {buffer bufferSize : Nat} (hinit : fwArenaInit buffer bufferSize = .ok arena) :
    arena = ⟨buffer, bufferSize, 0, 0⟩ ∧ 0 < buffer := by
  rw [fwArenaInit] at hinit
  split at hinit
  · cases hinit
  next hargs =>
    exact ⟨(Except.ok.inj hinit).symm, Nat.pos_of_ne_zero fun h => hargs (Or.inl h)⟩

theorem init_valid {buffer bufferSize : Nat} (hobject : buffer + bufferSize < T.sizeMod)
    (hinit : fwArenaInit buffer bufferSize = .ok arena) :
    arena = ⟨buffer, bufferSize, 0, 0⟩ ∧ arena.Valid T := by
  obtain ⟨rfl, hbuffer⟩ := init_eq hinit
  exact ⟨rfl, hbuffer, hobject, Nat.zero_le _⟩

/-- The address that `bump` hands out, and the arena afterwards. -/
def bumped (T : Target) (arena : FwArena) (size alignment : Nat) : Nat × FwArena :=
  (arena.buffer + arena.offset + arena.padding T alignment,
    { arena with
      offset := arena.offset + arena.padding T alignment + size
      peakUsed := max arena.peakUsed (arena.offset + arena.padding T alignment + size) })

/-- The alignment that `fw_arena_alloc` works with. -/
def alignmentOf (T : Target) (alignment : Nat) : Nat :=
  if alignment = 0 then T.ptrSize else alignment

/-- The buffer does not wrap around the address space; it may end at its top. -/
structure Fits (T : Target) (arena : FwArena) : Prop where
  buffer_pos : 0 < arena.buffer
  buffer_end : arena.buffer + arena.capacity ≤ T.sizeMod
  offset_le : arena.offset ≤ arena.capacity

theorem Valid.fits (h : arena.Valid T) : arena.Fits T :=
  ⟨h.buffer_pos, Nat.le_of_lt h.buffer_end, h.offset_le⟩

namespace Fits

/-- With room behind the padding the aligned address has not wrapped around. -/
theorem alignUp_eq (h : arena.Fits T) (hpow : ∃ k, alignment = 2 ^ k)
    (halign : alignment < T.sizeMod)
    (hroom : arena.padding T alignment < arena.capacity - arena.offset) :
    T.alignUp (arena.buffer + arena.offset) alignment =
        arena.buffer + arena.offset + arena.padding T alignment ∧
      alignment ∣ arena.buffer + arena.offset + arena.padding T alignment := by
  have hend := h.buffer_end
  have hpos := h.buffer_pos
  have hcurr : arena.buffer + arena.offset < T.sizeMod := by omega
  rw [padding, Target.size, Nat.mod_eq_of_lt hcurr] at hroom ⊢
  by_cases hover : T.sizeMod ≤ arena.buffer + arena.offset + (alignment - 1)
  · rw [Target.alignUp_overflow hpow halign hcurr hover, Target.sizeSub, Target.size,
      Nat.mod_eq_of_lt (by omega)] at hroom
    omega
  · obtain ⟨hle, -, hdvd⟩ := Target.alignUp_bounds hpow halign (Nat.lt_of_not_le hover)
    rw [T.sizeSub_of_le hle (Target.alignUp_lt hpow halign), Nat.add_sub_cancel' hle]
    exact ⟨rfl, hdvd⟩

theorem bump_eq (h : arena.Fits T) (hpow : ∃ k, alignment = 2 ^ k)
    (halign : alignment < T.sizeMod) (hsize : 0 < size) :
    arena.bump T size alignment =
      if arena.padding T alignment + size ≤ arena.capacity - arena.offset then
        arena.bumped T size alignment
      else (fwNull, arena) := by
  have hend := h.buffer_end
  have hpos := h.buffer_pos
  have hle := h.offset_le
  have havailable : T.sizeSub arena.capacity arena.offset = arena.capacity - arena.offset :=
    T.sizeSub_of_le hle (by omega)
  rw [bump, havailable]
  by_cases hroom : arena.padding T alignment ≤ arena.capacity - arena.offset
  · have hrest : T.sizeSub (arena.capacity - arena.offset) (arena.padding T alignment) =
        arena.capacity - arena.offset - arena.padding T alignment :=
      T.sizeSub_of_le hroom (by omega)
    rw [hrest]
    by_cases hfits : arena.padding T alignment + size ≤ arena.capacity - arena.offset
    · have hsum : T.size (arena.padding T alignment + size) =
          arena.padding T alignment + size := Nat.mod_eq_of_lt (by omega)
      have hoffset : T.size (arena.offset + (arena.padding T alignment + size)) =
          arena.offset + arena.padding T alignment + size := by
        rw [← Nat.add_assoc]
        exact Nat.mod_eq_of_lt (by omega)
      have hcurr : T.size (arena.buffer + arena.offset) = arena.buffer + arena.offset :=
        Nat.mod_eq_of_lt (by omega)
      rw [if_neg (by omega), if_pos hfits, hsum, hoffset, hcurr,
        (h.alignUp_eq hpow halign (by omega)).1, bumped, max_def_lt]
    · rw [if_pos (by omega), if_neg hfits]
  · rw [if_pos (by omega), if_neg (by omega)]

/-- Every allocation fails and changes nothing, or returns the aligned address behind the
offset. -/
theorem alloc_cases (h : arena.Fits T) (size : Nat) (halign : alignment < T.sizeMod) :
    fwArenaAlloc T arena size alignment = (fwNull, arena) ∨
      (∃ k, alignmentOf T alignment = 2 ^ k) ∧ 0 < size ∧
      fwArenaAlloc T arena size alignment = arena.bumped T size (alignmentOf T alignment) ∧
      arena.padding T (alignmentOf T alignment) + size ≤ arena.capacity - arena.offset ∧
      alignmentOf T alignment ∣
        arena.buffer + arena.offset + arena.padding T (alignmentOf T alignment) := by
  have hbump : ∀ a, (∃ k, a = 2 ^ k) → a < T.sizeMod → 0 < size →
      arena.bump T size a = (fwNull, arena) ∨
        arena.bump T size a = arena.bumped T size a ∧
        arena.padding T a + size ≤ arena.capacity - arena.offset ∧
        a ∣ arena.buffer + arena.offset + arena.padding T a := by
    intro a hpow ha hpos
    rw [h.bump_eq hpow ha hpos]
    by_cases hfits : arena.padding T a + size ≤ arena.capacity - arena.offset
    · rw [if_pos hfits]
      exact Or.inr ⟨rfl, hfits, (h.alignUp_eq hpow ha (by omega)).2⟩
    · exact Or.inl (if_neg hfits)
  rw [fwArenaAlloc, alignmentOf]
  by_cases hzero : size = 0
  · exact Or.inl (if_pos hzero)
  have hpos : 0 < size := Nat.pos_of_ne_zero hzero
  rw [if_neg hzero]
  by_cases hdefault : alignment = 0
  · rw [if_pos hdefault, if_pos hdefault]
    exact (hbump _ T.ptrSize_pow T.ptrSize_lt hpos).imp_right fun hok => ⟨T.ptrSize_pow, hpos, hok⟩
  · rw [if_neg hdefault, if_neg hdefault]
    by_cases htest : alignment &&& (alignment - 1) ≠ 0
    · exact Or.inl (if_pos htest)
    · have hpow := PowerOfTwo.pow_of_and_pred hdefault (not_not.mp htest)
      rw [if_neg htest]
      exact (hbump _ hpow halign hpos).imp_right fun hok => ⟨hpow, hpos, hok⟩

/-- A successful allocation leaves the arena inside of its buffer. -/
theorem bumped_fits (h : arena.Fits T)
    (hfits : arena.padding T alignment + size ≤ arena.capacity - arena.offset) :
    (arena.bumped T size alignment).2.Fits T := by
  have hle := h.offset_le
  refine ⟨h.buffer_pos, h.buffer_end, ?_⟩
  change arena.offset + arena.padding T alignment + size ≤ arena.capacity
  omega

end Fits

namespace Valid

/-- An allocation of words, as the memory hub makes it. -/
theorem alloc_word (h : arena.Valid T) (hsize : size ≠ 0) :
    fwArenaAlloc T arena size 4 =
      if arena.padding T 4 + size ≤ arena.capacity - arena.offset then arena.bumped T size 4
      else (fwNull, arena) := by
  have hword : 4 < T.sizeMod := Nat.lt_of_lt_of_le (by decide) T.sizeMod_ge
  have hpow : ∃ k, 4 = 2 ^ k := ⟨2, rfl⟩
  rw [fwArenaAlloc, if_neg hsize, if_neg (by decide), if_neg (by decide),
    h.fits.bump_eq hpow hword (Nat.pos_of_ne_zero hsize)]

theorem bumped_valid (h : arena.Valid T)
    (hfits : arena.padding T alignment + size ≤ arena.capacity - arena.offset) :
    (arena.bumped T size alignment).2.Valid T := by
  have hle := h.offset_le
  refine ⟨h.buffer_pos, h.buffer_end, ?_⟩
  change arena.offset + arena.padding T alignment + size ≤ arena.capacity
  omega

end Valid

end FwArena

end ZeroEmbedded.Memory
