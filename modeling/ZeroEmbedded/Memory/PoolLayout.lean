import ZeroEmbedded.Memory.PoolInit

/-!
# The layout of a pool

`fw_pool_init` rounds the block size up to the alignment without a test for
overflow. When the sum wraps around, the rounded size is zero, and the next
statement divides by it. All other arguments are rejected or give a pool that
lies in its buffer.
-/

namespace ZeroEmbedded.Memory

open Foundation

variable {T : Target} {m m' : ByteMemory} {pool : FwPool}
  {buffer bufferSize blockSize alignment : Nat}

/-- The bitmap and the blocks lie in the buffer as the caller has asked for. The bitmap ends where
the blocks begin. -/
structure FwPool.LaidOut (buffer bufferSize blockSize alignment : Nat) (pool : FwPool) : Prop where
  bitmap_start : buffer ≤ pool.allocBitmap
  bitmap_bits : pool.allocBitmap + 4 * ((pool.capacity + 31) / 32) ≤ pool.storage
  block_start : ∀ i < pool.capacity, pool.storage ≤ pool.addr i
  block_end : ∀ i < pool.capacity, pool.addr i + pool.blockSize ≤ buffer + bufferSize
  disjoint : ∀ i < pool.capacity, ∀ j < pool.capacity, i ≠ j →
    pool.addr i + pool.blockSize ≤ pool.addr j ∨ pool.addr j + pool.blockSize ≤ pool.addr i
  blockSize_le : blockSize ≤ pool.blockSize
  aligned : ∀ i < pool.capacity, alignment ∣ pool.addr i
  shift : pool.blockShift ≠ 0 → 1 <<< pool.blockShift = pool.blockSize

theorem FwPool.Built.laidOut (h : pool.Built T m buffer bufferSize blockSize alignment m') :
    pool.LaidOut buffer bufferSize blockSize alignment where
  bitmap_start := h.bitmap_start
  bitmap_bits := h.bitmap_end
  block_start _ _ := Nat.le_add_right _ _
  block_end _ hi := Nat.le_trans (FwPool.addr_end hi) h.storage_end
  disjoint _ _ _ _ hne := FwPool.addr_disjoint hne
  blockSize_le := h.blockSize_le
  aligned i _ := by
    apply Nat.dvd_trans h.alignment_dvd
    exact Nat.dvd_add h.storage_aligned (Dvd.dvd.mul_left h.blockSize_aligned i)
  shift hne := by
    rw [Nat.one_shiftLeft]
    exact (h.shift (Nat.pos_of_ne_zero hne)).symm

/-- `fw_pool_init` returns before it divides. -/
def PoolArgsRejected (T : Target) (buffer bufferSize alignment : Nat) : Prop :=
  buffer = fwNull ∨ (alignment = 0 ∨ alignment &&& (alignment - 1) ≠ 0) ∨
    bufferSize ≤ T.sizeSub
      (T.alignUp buffer (if alignment < T.ptrSize then T.ptrSize else alignment)) buffer

/-- The block size can be rounded up to the alignment in `fw_size_t`. -/
def BlockSizeFits (T : Target) (blockSize alignment : Nat) : Prop :=
  max blockSize T.ptrSize + (max alignment T.ptrSize - 1) < T.sizeMod

instance : Decidable (PoolArgsRejected T buffer bufferSize alignment) :=
  inferInstanceAs (Decidable (_ ∨ _))

instance : Decidable (BlockSizeFits T blockSize alignment) := inferInstanceAs (Decidable (_ < _))

/-- `fw_pool_init` has one error status. -/
theorem fwPoolInit_error {e : FwStatus}
    (hinit : fwPoolInit T m buffer bufferSize blockSize alignment = .error e) :
    e = .errInvalidArg := by
  simp only [fwPoolInit] at hinit
  repeat' split at hinit
  all_goals cases hinit
  all_goals rfl

/-- Arguments that are rejected do not reach a division. -/
theorem fwPoolInitDivisor_of_rejected (h : PoolArgsRejected T buffer bufferSize alignment) :
    fwPoolInitDivisor T buffer bufferSize blockSize alignment = none := by
  rcases h with hnull | htest | hroom
  · rw [fwPoolInitDivisor, if_pos hnull]
  · by_cases hnull : buffer = fwNull
    · rw [fwPoolInitDivisor, if_pos hnull]
    · rw [fwPoolInitDivisor, if_neg hnull, if_pos htest]
  · simp only [fwPoolInitDivisor, if_pos hroom]
    split
    · rfl
    · split <;> rfl

theorem ite_lt_eq_max (a b : Nat) : (if a < b then b else a) = max a b := by
  split <;> omega

/-- All other arguments are divided by the rounded block size, which is zero if rounding it
overflows. -/
theorem fwPoolInitDivisor_of_not_rejected (hblock : blockSize < T.sizeMod)
    (halign : alignment < T.sizeMod) (h : ¬ PoolArgsRejected T buffer bufferSize alignment) :
    ∃ divisor, fwPoolInitDivisor T buffer bufferSize blockSize alignment = some divisor ∧
      (divisor ≠ 0 ↔ BlockSizeFits T blockSize alignment) := by
  obtain ⟨hnull, hrest⟩ := not_or.mp h
  obtain ⟨htest, hroom⟩ := not_or.mp hrest
  refine ⟨_, by rw [fwPoolInitDivisor, if_neg hnull, if_neg htest]; exact if_neg hroom, ?_⟩
  rw [not_or, not_not] at htest
  have hpow := alignment_pow (T := T) htest.1 htest.2
  have hmod := T.sizeMod_ge
  have hptr : T.ptrSize = 4 ∨ T.ptrSize = 8 := T.ptrSize_eq
  rw [ite_lt_eq_max] at hpow ⊢
  rw [ite_lt_eq_max, BlockSizeFits]
  have halign' : max alignment T.ptrSize < T.sizeMod := by omega
  have hblock' : max blockSize T.ptrSize < T.sizeMod := by omega
  constructor
  · intro hne
    by_contra hover
    exact hne (Target.alignUp_overflow hpow halign' hblock' (Nat.le_of_not_lt hover))
  · intro hfits
    obtain ⟨hle, -, -⟩ := Target.alignUp_bounds hpow halign' hfits
    omega

/-- `fw_pool_init` divides by zero exactly when its other arguments are accepted and the block
size cannot be rounded up. Otherwise it rejects its arguments or lays the pool out in the
buffer. -/
theorem fwPoolInit_layout_iff (hbuffer : buffer < T.sizeMod)
    (hobject : buffer + bufferSize ≤ T.sizeMod) (hbufferSize : bufferSize < T.sizeMod)
    (hblock : blockSize < T.sizeMod) (halign : alignment < T.sizeMod) :
    (fwPoolInitDivisor T buffer bufferSize blockSize alignment ≠ some 0 ∧
      (fwPoolInit T m buffer bufferSize blockSize alignment = .error .errInvalidArg ∨
        ∃ pool m', fwPoolInit T m buffer bufferSize blockSize alignment = .ok (pool, m') ∧
          pool.LaidOut buffer bufferSize blockSize alignment)) ↔
      PoolArgsRejected T buffer bufferSize alignment ∨ BlockSizeFits T blockSize alignment := by
  have hresult : fwPoolInit T m buffer bufferSize blockSize alignment = .error .errInvalidArg ∨
      ∃ pool m', fwPoolInit T m buffer bufferSize blockSize alignment = .ok (pool, m') ∧
        pool.LaidOut buffer bufferSize blockSize alignment := by
    cases hinit : fwPoolInit T m buffer bufferSize blockSize alignment with
    | error e => exact Or.inl (by rw [fwPoolInit_error hinit])
    | ok built =>
        obtain ⟨pool, m'⟩ := built
        have hbuilt := fwPoolInit_built hbuffer hobject hbufferSize hblock halign hinit
        exact Or.inr ⟨pool, m', rfl, hbuilt.laidOut⟩
  by_cases hrejected : PoolArgsRejected T buffer bufferSize alignment
  · have hdivisor : fwPoolInitDivisor T buffer bufferSize blockSize alignment = none :=
      fwPoolInitDivisor_of_rejected hrejected
    constructor
    · exact fun _ => Or.inl hrejected
    · exact fun _ => ⟨by rw [hdivisor]; exact nofun, hresult⟩
  · obtain ⟨divisor, hdivisor, hzero⟩ :=
      fwPoolInitDivisor_of_not_rejected hblock halign hrejected
    rw [hdivisor, ne_eq, Option.some.injEq, ← ne_eq, hzero]
    constructor
    · exact fun h => Or.inr h.1
    · exact fun h => ⟨h.resolve_left hrejected, hresult⟩

theorem fwPoolInit_layout_sample :
    fwPoolInitDivisor ⟨4, Or.inl rfl⟩ 16 32 8 4 ≠ some 0 ∧
      (fwPoolInit ⟨4, Or.inl rfl⟩ (fun _ => 0) 16 32 8 4 = .error .errInvalidArg ∨
        ∃ pool m', fwPoolInit ⟨4, Or.inl rfl⟩ (fun _ => 0) 16 32 8 4 = .ok (pool, m') ∧
          pool.LaidOut 16 32 8 4) :=
  (fwPoolInit_layout_iff (T := ⟨4, Or.inl rfl⟩) (m := fun _ => 0) (by decide) (by decide)
    (by decide) (by decide) (by decide)).mpr (Or.inr (by decide))

/-- A block size of `SIZE_MAX` is rounded up to zero. -/
theorem fwPoolInit_divides_by_zero :
    ¬ ∀ (T : Target) (m : ByteMemory) (buffer bufferSize blockSize alignment : Nat),
      buffer + bufferSize ≤ T.sizeMod → buffer < T.sizeMod → bufferSize < T.sizeMod →
      blockSize < T.sizeMod → alignment < T.sizeMod →
      fwPoolInitDivisor T buffer bufferSize blockSize alignment ≠ some 0 ∧
        (fwPoolInit T m buffer bufferSize blockSize alignment = .error .errInvalidArg ∨
          ∃ pool m', fwPoolInit T m buffer bufferSize blockSize alignment = .ok (pool, m') ∧
            pool.LaidOut buffer bufferSize blockSize alignment) := by
  intro hclaim
  have hzero : fwPoolInitDivisor ⟨4, Or.inl rfl⟩ 16 32 (2 ^ 32 - 1) 4 = some 0 := by decide
  exact (hclaim ⟨4, Or.inl rfl⟩ (fun _ => 0) 16 32 (2 ^ 32 - 1) 4 (by decide) (by decide)
    (by decide) (by decide) (by decide)).1 hzero

end ZeroEmbedded.Memory
