import ZeroEmbedded.Foundation.ByteMemory
import ZeroEmbedded.Foundation.LinkedList
import ZeroEmbedded.Types

/-!
# The fixed-size block pool

`pool.c` over a byte memory. The free list runs through the first bytes of the
free blocks, and the allocation bitmap lies in front of the blocks. The control
structure `fw_pool_t` lies outside of this memory.

## Implementation notes

Addresses are natural numbers and `FW_NULL` is 0. A divisor of zero has the
quotient zero; `fw_pool_init` then finds no room for a block. On a machine this
division is undefined, and `fwPoolInitDivisor` tells when it is reached.
-/

namespace ZeroEmbedded.Memory

open Foundation

/-- `FW_NULL`. -/
def fwNull : Nat := 0

/-- `fw_pool_t`. -/
structure FwPool where
  storage : Nat
  storageSize : Nat
  blockSize : Nat
  alignment : Nat
  capacity : Nat
  freeCount : Nat
  freeList : Nat
  allocBitmap : Nat
  blockShift : Nat
  deriving DecidableEq, Repr

/-- The loop that counts the bits of `temp`. -/
def shiftLoop : Nat → Nat → Nat → Nat
  | 0, _, shift => shift
  | fuel + 1, temp, shift => if temp > 1 then shiftLoop fuel (temp >>> 1) (shift + 1) else shift

/-- `*link = node`, where the first link is `pool->free_list`. -/
def setLink (T : Target) (link : Option Nat) (node : Nat) (s : ByteMemory × Nat) :
    ByteMemory × Nat :=
  match link with
  | none => (s.1, node)
  | some a => (s.1.store a T.ptrSize node, s.2)

/-- The loop that links the remaining blocks; the state is the memory and `pool->free_list`. -/
def linkLoop (T : Target) (blockSize : Nat) :
    Nat → Nat → Option Nat → ByteMemory × Nat → ByteMemory × Nat
  | 0, _, link, s => setLink T link fwNull s
  | n + 1, curr, link, s =>
      linkLoop T blockSize n (T.size (curr + blockSize)) (some curr) (setLink T link curr s)

/-- `fw_pool_init`. -/
def fwPoolInit (T : Target) (m : ByteMemory) (buffer bufferSize blockSize alignment : Nat) :
    Except FwStatus (FwPool × ByteMemory) :=
  if buffer = fwNull then .error .errInvalidArg
  else if alignment = 0 ∨ alignment &&& (alignment - 1) ≠ 0 then .error .errInvalidArg
  else
    let alignment := if alignment < T.ptrSize then T.ptrSize else alignment
    let blockSize := if blockSize < T.ptrSize then T.ptrSize else blockSize
    let alignedBlockSize := T.alignUp blockSize alignment
    let alignedStart := T.alignUp buffer alignment
    let overhead := T.sizeSub alignedStart buffer
    if bufferSize ≤ overhead then .error .errInvalidArg
    else
      let usableSize := bufferSize - overhead
      let estimatedCap := usableSize / alignedBlockSize
      let bitmapWords := T.size (estimatedCap + 31) / 32
      let bitmapBytes := T.alignUp (T.size (bitmapWords * 4)) alignment
      if usableSize ≤ bitmapBytes then .error .errInvalidArg
      else
        let capacity := (usableSize - bitmapBytes) / alignedBlockSize
        if capacity = 0 then .error .errInvalidArg
        else
          let blockStart := T.alignUp (T.size (alignedStart + bitmapBytes)) alignment
          let blockShift := if alignedBlockSize &&& (alignedBlockSize - 1) = 0 then
            shiftLoop 64 alignedBlockSize 0 else 0
          let linked := linkLoop T alignedBlockSize capacity blockStart none
            (m.fill alignedStart bitmapBytes 0, fwNull)
          .ok ({ storage := blockStart
                 storageSize := T.size (capacity * alignedBlockSize)
                 blockSize := alignedBlockSize
                 alignment := alignment
                 capacity := capacity
                 freeCount := capacity
                 freeList := linked.2
                 allocBitmap := alignedStart
                 blockShift := blockShift }, linked.1)

/-- The divisor of the divisions in `fw_pool_init`, if it gets to them. -/
def fwPoolInitDivisor (T : Target) (buffer bufferSize blockSize alignment : Nat) : Option Nat :=
  if buffer = fwNull then none
  else if alignment = 0 ∨ alignment &&& (alignment - 1) ≠ 0 then none
  else
    let alignment := if alignment < T.ptrSize then T.ptrSize else alignment
    let blockSize := if blockSize < T.ptrSize then T.ptrSize else blockSize
    let alignedBlockSize := T.alignUp blockSize alignment
    let alignedStart := T.alignUp buffer alignment
    let overhead := T.sizeSub alignedStart buffer
    if bufferSize ≤ overhead then none else some alignedBlockSize

/-- The index of the block at an offset. -/
def FwPool.index (pool : FwPool) (offset : Nat) : Nat :=
  if pool.blockShift > 0 then offset >>> pool.blockShift else offset / pool.blockSize

/-- `fw_pool_alloc`. -/
def fwPoolAlloc (T : Target) (m : ByteMemory) (pool : FwPool) : Nat × FwPool × ByteMemory :=
  if pool.freeList = fwNull then (fwNull, pool, m)
  else
    let node := pool.freeList
    let idx := pool.index (T.sizeSub node pool.storage)
    (node, { pool with
      freeList := m.load node T.ptrSize
      freeCount := T.sizeSub pool.freeCount 1 }, m.setBit pool.allocBitmap idx)

/-- The offset does not lie at the start of a block. -/
def FwPool.misaligned (T : Target) (pool : FwPool) (offset : Nat) : Bool :=
  if pool.blockShift > 0 then offset &&& T.sizeSub (T.size (1 <<< pool.blockShift)) 1 ≠ 0
  else offset % pool.blockSize ≠ 0

/-- `fw_pool_free`, where `assert` is `ZERO_ENABLE_ASSERT`. -/
def fwPoolFree (T : Target) (assert : Bool) (m : ByteMemory) (pool : FwPool) (block : Nat) :
    FwStatus × FwPool × ByteMemory :=
  if block = fwNull then (.errInvalidArg, pool, m)
  else if block < pool.storage ∨ block ≥ T.size (pool.storage + pool.storageSize) then
    (.errInvalidArg, pool, m)
  else
    let offset := T.sizeSub block pool.storage
    if pool.misaligned T offset then (.errInvalidArg, pool, m)
    else
      let idx := pool.index offset
      if m.bitAt pool.allocBitmap idx = false then (.errInvalidArg, pool, m)
      else
        let m := m.clearBit pool.allocBitmap idx
        let m := if assert then m.fill block pool.blockSize 0xDF else m
        (.ok, { pool with freeList := block, freeCount := T.size (pool.freeCount + 1) },
          m.store block T.ptrSize pool.freeList)

namespace FwPool

/-- The start address of a block. -/
def addr (pool : FwPool) (i : Nat) : Nat := pool.storage + i * pool.blockSize

/-- The memory after block `i` has been freed. -/
def freed (T : Target) (assert : Bool) (m : ByteMemory) (pool : FwPool) (i : Nat) : ByteMemory :=
  let m := m.clearBit pool.allocBitmap i
  let m := if assert then m.fill (pool.addr i) pool.blockSize 0xDF else m
  m.store (pool.addr i) T.ptrSize pool.freeList

/-- How a pool lies in its memory. -/
structure Layout (T : Target) (pool : FwPool) : Prop where
  ptrSize_le : T.ptrSize ≤ pool.blockSize
  shift : pool.blockShift > 0 → pool.blockSize = 2 ^ pool.blockShift
  size_eq : pool.storageSize = pool.capacity * pool.blockSize
  storage_pos : 0 < pool.storage
  storage_end : pool.storage + pool.capacity * pool.blockSize < T.sizeMod
  bitmap_end : pool.allocBitmap + 4 * ((pool.capacity + 31) / 32) ≤ pool.storage

/-- The free list and the bitmap describe the same set of free blocks. -/
structure Represents (T : Target) (m : ByteMemory) (pool : FwPool) (free : List Nat) : Prop where
  layout : pool.Layout T
  nodup : free.Nodup
  lt : ∀ i ∈ free, i < pool.capacity
  linked : Linked (fun a => m.load a T.ptrSize) pool.freeList (free.map pool.addr) fwNull
  bits : ∀ i < pool.capacity, m.bitAt pool.allocBitmap i = true ↔ i ∉ free
  count : pool.freeCount = free.length

variable {T : Target} {m m' : ByteMemory} {pool : FwPool} {free : List Nat} {i j offset : Nat}

theorem addr_end (hi : i < pool.capacity) :
    pool.addr i + pool.blockSize ≤ pool.storage + pool.capacity * pool.blockSize := by
  have hle := Nat.mul_le_mul_right pool.blockSize (Nat.succ_le_of_lt hi)
  rw [Nat.succ_mul] at hle
  rw [addr]
  omega

/-- Two blocks do not overlap. -/
theorem addr_disjoint (hne : i ≠ j) :
    pool.addr i + pool.blockSize ≤ pool.addr j ∨ pool.addr j + pool.blockSize ≤ pool.addr i := by
  rw [addr, addr]
  rcases Nat.lt_or_gt_of_ne hne with hlt | hgt
  · have hle := Nat.mul_le_mul_right pool.blockSize (Nat.succ_le_of_lt hlt)
    rw [Nat.succ_mul] at hle
    omega
  · have hle := Nat.mul_le_mul_right pool.blockSize (Nat.succ_le_of_lt hgt)
    rw [Nat.succ_mul] at hle
    omega

namespace Layout

theorem blockSize_pos (h : pool.Layout T) : 0 < pool.blockSize := by
  have hle := h.ptrSize_le
  rcases T.ptrSize_eq with hptr | hptr <;> omega

/-- Both ways to find the index of a block divide by the block size. -/
theorem index_eq (h : pool.Layout T) (offset : Nat) :
    pool.index offset = offset / pool.blockSize := by
  rw [index]
  split
  · next hshift => rw [Nat.shiftRight_eq_div_pow, ← h.shift hshift]
  · rfl

/-- Both ways to test the alignment of an offset take the remainder by the block size. -/
theorem misaligned_eq (h : pool.Layout T) (hpos : 0 < pool.capacity) (offset : Nat) :
    pool.misaligned T offset = decide (offset % pool.blockSize ≠ 0) := by
  rw [misaligned]
  split
  · next hshift =>
      have hsize := h.shift hshift
      have hend := addr_end hpos
      have hlt : 2 ^ pool.blockShift < T.sizeMod := by
        have := h.storage_end
        rw [addr] at hend
        omega
      have hone : 1 ≤ 2 ^ pool.blockShift := Nat.one_le_two_pow
      rw [Nat.one_shiftLeft, Target.size, Nat.mod_eq_of_lt hlt, T.sizeSub_of_le hone hlt,
        Nat.and_two_pow_sub_one_eq_mod, ← hsize]
  · rfl

theorem addr_lt (h : pool.Layout T) (hi : i < pool.capacity) : pool.addr i < T.sizeMod := by
  have hend := addr_end hi
  have hpos := h.blockSize_pos
  have hstorage := h.storage_end
  omega

theorem addr_ne_null (h : pool.Layout T) (i : Nat) : pool.addr i ≠ fwNull := by
  have hpos := h.storage_pos
  rw [addr, fwNull]
  omega

theorem addr_inj (h : pool.Layout T) (heq : pool.addr i = pool.addr j) : i = j :=
  Nat.eq_of_mul_eq_mul_right h.blockSize_pos (Nat.add_left_cancel heq)

/-- The word of a block's bit lies in front of the blocks. -/
theorem word_end (h : pool.Layout T) (hi : i < pool.capacity) :
    ByteMemory.wordOf pool.allocBitmap i + 4 ≤ pool.storage := by
  have hend := h.bitmap_end
  rw [ByteMemory.wordOf, ByteMemory.shift_5]
  omega

/-- The layout does not depend on the free list. -/
theorem relist {list count : Nat} (h : pool.Layout T) :
    FwPool.Layout T { pool with freeList := list, freeCount := count } :=
  ⟨h.ptrSize_le, h.shift, h.size_eq, h.storage_pos, h.storage_end, h.bitmap_end⟩

theorem offset_addr (h : pool.Layout T) (hi : i < pool.capacity) :
    T.sizeSub (pool.addr i) pool.storage = i * pool.blockSize := by
  have hle : pool.storage ≤ pool.addr i := Nat.le_add_right _ _
  rw [T.sizeSub_of_le hle (h.addr_lt hi), addr, Nat.add_sub_cancel_left]

theorem index_addr (h : pool.Layout T) (hi : i < pool.capacity) :
    pool.index (T.sizeSub (pool.addr i) pool.storage) = i := by
  rw [h.offset_addr hi, h.index_eq, Nat.mul_div_cancel _ h.blockSize_pos]

end Layout

namespace Represents

/-- A pool does not notice changes outside of its bitmap and its free blocks. -/
theorem congr (h : pool.Represents T m free)
    (hbitmap : ByteMemory.AgreeOn m m' pool.allocBitmap pool.storage)
    (hfree : ∀ i ∈ free, ByteMemory.AgreeOn m m' (pool.addr i) (pool.addr i + pool.blockSize)) :
    pool.Represents T m' free where
  layout := h.layout
  nodup := h.nodup
  lt := h.lt
  linked := by
    apply h.linked.congr
    intro x hx
    obtain ⟨i, hi, rfl⟩ := List.mem_map.mp hx
    apply ByteMemory.AgreeOn.load_eq
    exact (hfree i hi).mono (Nat.le_refl _) (Nat.add_le_add_left h.layout.ptrSize_le _)
  bits i hi := by
    rw [← h.bits i hi, ByteMemory.bitAt, ByteMemory.bitAt, ByteMemory.AgreeOn.loadWord_eq]
    exact (hbitmap.mono (Nat.le_add_right _ _) (h.layout.word_end hi)).symm
  count := h.count

/-- At most all blocks are free. -/
theorem length_le (h : pool.Represents T m free) : free.length ≤ pool.capacity := by
  have hsub : free ⊆ List.range pool.capacity := fun i hi => List.mem_range.mpr (h.lt i hi)
  have hle := (h.nodup.subperm hsub).length_le
  rwa [List.length_range] at hle

/-- The head of the free list is an address. -/
theorem freeList_lt (h : pool.Represents T m free) : pool.freeList < T.sizeMod := by
  cases free with
  | nil =>
      have hnil := h.linked.nil_eq
      have hstorage := h.layout.storage_end
      rw [hnil, fwNull]
      omega
  | cons i rest =>
      rw [h.linked.uncons.1]
      exact h.layout.addr_lt (h.lt i List.mem_cons_self)

/-- Without a free block nothing is allocated. -/
theorem alloc_nil (h : pool.Represents T m []) : fwPoolAlloc T m pool = (fwNull, pool, m) := by
  rw [fwPoolAlloc, if_pos h.linked.nil_eq]

/-- Allocation takes the first block of the free list; only the bitmap changes. -/
theorem alloc_cons (h : pool.Represents T m (i :: free)) :
    ∃ next, fwPoolAlloc T m pool = (pool.addr i,
        { pool with freeList := next, freeCount := free.length },
        m.setBit pool.allocBitmap i) ∧
      FwPool.Represents T (m.setBit pool.allocBitmap i)
        { pool with freeList := next, freeCount := free.length } free := by
  have hi : i < pool.capacity := h.lt i List.mem_cons_self
  have hnotin : i ∉ free := (List.nodup_cons.mp h.nodup).1
  obtain ⟨hhead, hrest⟩ := h.linked.uncons
  have hcount : T.sizeSub pool.freeCount 1 = free.length := by
    have hlen := h.count
    have hle := h.length_le
    have hcap := h.layout.storage_end
    have hmul := Nat.le_mul_of_pos_right pool.capacity h.layout.blockSize_pos
    rw [List.length_cons] at hlen hle
    rw [T.sizeSub_of_le (by omega) (by omega), hlen, Nat.add_sub_cancel]
  have hword := h.layout.word_end hi
  refine ⟨m.load (pool.addr i) T.ptrSize, ?_, ?_⟩
  · rw [fwPoolAlloc, hhead, if_neg (h.layout.addr_ne_null i)]
    dsimp only
    rw [h.layout.index_addr hi, hcount]
  · refine ⟨h.layout.relist, (List.nodup_cons.mp h.nodup).2,
      fun j hj => h.lt j (List.mem_cons_of_mem _ hj), ?_, ?_, rfl⟩
    · apply hrest.congr
      intro x hx
      obtain ⟨j, -, rfl⟩ := List.mem_map.mp hx
      apply ByteMemory.AgreeOn.load_eq
      apply ByteMemory.AgreeOn.symm
      apply ByteMemory.setBit_agreeOn
      exact Or.inr (Nat.le_trans hword (Nat.le_add_right _ _))
    · intro j hj
      change (m.setBit pool.allocBitmap i).bitAt pool.allocBitmap j = true ↔ _
      rw [ByteMemory.bitAt_setBit, Bool.or_eq_true, decide_eq_true_eq, h.bits j hj,
        List.mem_cons, not_or]
      constructor
      · rintro (rfl | ⟨-, hj⟩)
        · exact hnotin
        · exact hj
      · intro hj
        by_cases heq : i = j
        · exact Or.inl heq
        · exact Or.inr ⟨Ne.symm heq, hj⟩

/-- The range test of `fw_pool_free`. -/
theorem end_eq (h : pool.Represents T m free) :
    T.size (pool.storage + pool.storageSize) =
      pool.storage + pool.capacity * pool.blockSize := by
  rw [h.layout.size_eq]
  exact Nat.mod_eq_of_lt h.layout.storage_end

/-- Only the start address of a block that is not free can be freed. -/
theorem free_error {assert : Bool} {p : Nat} (h : pool.Represents T m free)
    (hpos : 0 < pool.capacity) (hp : ∀ i < pool.capacity, p = pool.addr i → i ∈ free) :
    fwPoolFree T assert m pool p = (.errInvalidArg, pool, m) := by
  rw [fwPoolFree]
  split
  · rfl
  split
  · rfl
  next hrange =>
  rw [h.end_eq] at hrange
  have hend := h.layout.storage_end
  have hoffset : T.sizeSub p pool.storage = p - pool.storage :=
    T.sizeSub_of_le (by omega) (by omega)
  dsimp only
  rw [h.layout.misaligned_eq hpos, hoffset]
  by_cases haligned : (p - pool.storage) % pool.blockSize = 0
  · rw [if_neg (by simp [haligned]), h.layout.index_eq]
    -- the address of a block
    have hi : (p - pool.storage) / pool.blockSize < pool.capacity :=
      Nat.div_lt_of_lt_mul (by rw [Nat.mul_comm]; omega)
    have hp' : p = pool.addr ((p - pool.storage) / pool.blockSize) := by
      rw [FwPool.addr, Nat.div_mul_cancel (Nat.dvd_of_mod_eq_zero haligned)]
      omega
    have hbit : m.bitAt pool.allocBitmap ((p - pool.storage) / pool.blockSize) = false := by
      rw [← Bool.not_eq_true, h.bits _ hi, not_not]
      exact hp _ hi hp'
    rw [if_pos hbit]
  · rw [if_pos (by simp [haligned])]

/-- Poisoning and linking change only the block. -/
theorem freed_outside {assert : Bool} {x : Nat} (h : pool.Represents T m free)
    (hx : x < pool.addr i ∨ pool.addr i + pool.blockSize ≤ x) :
    pool.freed T assert m i x = m.clearBit pool.allocBitmap i x := by
  have hptr := h.layout.ptrSize_le
  rw [freed, ByteMemory.store_outside (by omega)]
  split
  · exact ByteMemory.fill_outside hx
  · rfl

/-- Freeing a block puts it in front of the free list. -/
theorem free_ok (assert : Bool) (h : pool.Represents T m free) (hi : i < pool.capacity)
    (hheld : i ∉ free) :
    fwPoolFree T assert m pool (pool.addr i) = (.ok,
        { pool with freeList := pool.addr i, freeCount := free.length + 1 },
        pool.freed T assert m i) ∧
      FwPool.Represents T (pool.freed T assert m i)
        { pool with freeList := pool.addr i, freeCount := free.length + 1 } (i :: free) := by
  have hend := FwPool.addr_end hi
  have hpos := h.layout.blockSize_pos
  have hstorage := h.layout.storage_end
  have hword := h.layout.word_end hi
  have hptr := h.layout.ptrSize_le
  constructor
  · have hbit : m.bitAt pool.allocBitmap i = true := (h.bits i hi).mpr hheld
    have hcount : T.size (pool.freeCount + 1) = free.length + 1 := by
      have hlen := h.count
      have hle := h.length_le
      have hmul := Nat.le_mul_of_pos_right pool.capacity hpos
      have hstart := h.layout.storage_pos
      rw [hlen, Target.size, Nat.mod_eq_of_lt (by omega)]
    have hrange : ¬ (pool.addr i < pool.storage ∨
        pool.addr i ≥ T.size (pool.storage + pool.storageSize)) := by
      rw [h.end_eq, FwPool.addr] at *
      omega
    have haligned : ¬ pool.misaligned T (T.sizeSub (pool.addr i) pool.storage) = true := by
      rw [h.layout.misaligned_eq (by omega), h.layout.offset_addr hi, Nat.mul_mod_left]
      simp
    rw [fwPoolFree, if_neg (h.layout.addr_ne_null i), if_neg hrange]
    dsimp only
    rw [if_neg haligned, h.layout.index_addr hi, hbit, if_neg (by decide), hcount]
    rfl
  · refine ⟨h.layout.relist, List.nodup_cons.mpr ⟨hheld, h.nodup⟩, ?_, ?_, ?_, rfl⟩
    · intro j hj
      rcases List.mem_cons.mp hj with rfl | hj
      · exact hi
      · exact h.lt j hj
    · -- the freed block links to the old first block
      have hlink : (pool.freed T assert m i).load (pool.addr i) T.ptrSize = pool.freeList := by
        apply ByteMemory.load_store
        rw [T.pow_ptrSize]
        exact h.freeList_lt
      apply Linked.cons
      dsimp only
      rw [hlink]
      apply h.linked.congr
      intro x hx
      obtain ⟨j, hj, rfl⟩ := List.mem_map.mp hx
      apply ByteMemory.AgreeOn.load_eq
      intro x hlow hhigh
      have hdisjoint := pool.addr_disjoint (i := i) (j := j) (by rintro rfl; exact hheld hj)
      rw [h.freed_outside (by omega)]
      refine (ByteMemory.clearBit_agreeOn (Or.inr ?_) x hlow hhigh).symm
      exact Nat.le_trans hword (Nat.le_add_right _ _)
    · intro j hj
      have hjword := h.layout.word_end hj
      have hagree : ByteMemory.AgreeOn (pool.freed T assert m i) (m.clearBit pool.allocBitmap i)
          pool.allocBitmap pool.storage := by
        intro x _ hx
        apply h.freed_outside
        left
        exact Nat.lt_of_lt_of_le hx (Nat.le_add_right _ _)
      have hsame : (pool.freed T assert m i).bitAt pool.allocBitmap j =
          (m.clearBit pool.allocBitmap i).bitAt pool.allocBitmap j := by
        rw [ByteMemory.bitAt, ByteMemory.bitAt, ByteMemory.AgreeOn.loadWord_eq]
        exact hagree.mono (Nat.le_add_right _ _) hjword
      change (pool.freed T assert m i).bitAt pool.allocBitmap j = true ↔ _
      rw [hsame, ByteMemory.bitAt_clearBit, Bool.and_eq_true, h.bits j hj, List.mem_cons, not_or,
        Bool.not_eq_true', decide_eq_false_iff_not, @eq_comm _ i j]

end Represents

end FwPool

end ZeroEmbedded.Memory
