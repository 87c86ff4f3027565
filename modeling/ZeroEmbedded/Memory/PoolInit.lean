import ZeroEmbedded.Memory.Pool

/-!
# A freshly initialised pool

`fw_pool_init` splits its buffer into the bitmap and the blocks, clears the
bitmap and links the blocks in the order of their addresses. Whatever sizes it
is given, success means that all blocks are free.
-/

namespace ZeroEmbedded.Memory

open Foundation

variable {T : Target} {m m' : ByteMemory} {pool : FwPool}

/-- The loop counts the bits of a power of two. -/
theorem shiftLoop_pow {fuel k shift : Nat} (h : k ≤ fuel) :
    shiftLoop fuel (2 ^ k) shift = shift + k := by
  induction fuel generalizing k shift with
  | zero => rw [Nat.le_zero.mp h]; rfl
  | succ fuel ih =>
      cases k with
      | zero => rfl
      | succ k =>
          have hgt : 2 ^ (k + 1) > 1 := Nat.one_lt_two_pow (by omega)
          have hhalf : 2 ^ (k + 1) >>> 1 = 2 ^ k := by
            rw [Nat.shiftRight_eq_div_pow, Nat.pow_succ, Nat.pow_one,
              Nat.mul_div_cancel _ (by decide)]
          rw [shiftLoop, if_pos hgt, hhalf, ih (by omega)]
          omega

section Linking

variable {blockSize n curr : Nat} {link : Option Nat} {s : ByteMemory × Nat}

/-- The blocks that remain to be linked. -/
def blocksFrom (blockSize curr n : Nat) : List Nat :=
  (List.range n).map fun i => curr + i * blockSize

theorem blocksFrom_succ (blockSize curr n : Nat) :
    blocksFrom blockSize curr (n + 1) =
      curr :: blocksFrom blockSize (curr + blockSize) n := by
  rw [blocksFrom, List.range_succ_eq_map, List.map_cons, List.map_map, Nat.zero_mul, Nat.add_zero]
  congr 1
  apply List.map_congr_left
  intro i _
  simp only [Function.comp_apply, Nat.succ_mul]
  omega

/-- Setting a link changes no other cell. -/
theorem setLink_outside {node x : Nat}
    (hlink : ∀ a, link = some a → x < a ∨ a + T.ptrSize ≤ x) :
    (setLink T link node s).1 x = s.1 x := by
  cases link with
  | none => rfl
  | some a => exact ByteMemory.store_outside (hlink a rfl)

/-- The loop changes only the last link and the blocks that it visits. -/
theorem linkLoop_outside {x : Nat} (hptr : T.ptrSize ≤ blockSize)
    (hend : curr + n * blockSize < T.sizeMod)
    (hlink : ∀ a, link = some a → x < a ∨ a + T.ptrSize ≤ x)
    (hx : x < curr ∨ curr + n * blockSize ≤ x) :
    (linkLoop T blockSize n curr link s).1 x = s.1 x := by
  induction n generalizing curr link s with
  | zero => exact setLink_outside hlink
  | succ n ih =>
      rw [Nat.succ_mul] at hend hx
      have hnext : T.size (curr + blockSize) = curr + blockSize := Nat.mod_eq_of_lt (by omega)
      rw [linkLoop, hnext, ih (by omega) ?_ (by omega)]
      · exact setLink_outside hlink
      · rintro a ⟨⟩
        omega

/-- When the open link is at the end of a list, the loop continues the list by its blocks. -/
theorem linkLoop_linked {before : List Nat} (hptr : T.ptrSize ≤ blockSize)
    (hend : curr + n * blockSize < T.sizeMod)
    (hbefore : ∀ x ∈ before, x + T.ptrSize ≤ curr)
    (hopen : ∀ node < T.sizeMod,
      Linked (fun a => (setLink T link node s).1.load a T.ptrSize) (setLink T link node s).2
        before node) :
    Linked (fun a => (linkLoop T blockSize n curr link s).1.load a T.ptrSize)
      (linkLoop T blockSize n curr link s).2 (before ++ blocksFrom blockSize curr n) fwNull := by
  induction n generalizing curr link s before with
  | zero =>
      rw [show blocksFrom blockSize curr 0 = [] from rfl, List.append_nil]
      exact hopen fwNull (by rw [fwNull]; omega)
  | succ n ih =>
      rw [Nat.succ_mul] at hend
      have hnext : T.size (curr + blockSize) = curr + blockSize := Nat.mod_eq_of_lt (by omega)
      rw [linkLoop, hnext, blocksFrom_succ, List.append_cons]
      apply ih (by omega)
      · intro x hx
        rcases List.mem_append.mp hx with hx | hx
        · have hle := hbefore x hx
          omega
        · rw [List.mem_singleton.mp hx]
          omega
      · -- the new open link is the one of the current block
        intro node hnode
        refine Linked.append ((hopen curr (by omega)).congr ?_) (Linked.cons ?_)
        · intro x hx
          apply ByteMemory.AgreeOn.load_eq
          apply ByteMemory.AgreeOn.symm
          exact ByteMemory.store_agreeOn (Or.inl (hbefore x hx))
        · have hload : ((setLink T link curr s).1.store curr T.ptrSize node).load curr T.ptrSize =
              node := ByteMemory.load_store (by rw [T.pow_ptrSize]; exact hnode)
          change Linked _ (((setLink T link curr s).1.store curr T.ptrSize node).load curr
            T.ptrSize) [] node
          rw [hload]
          exact Linked.nil node

end Linking

section Sizes

variable {buffer bufferSize blockSize alignment : Nat}

/-- The alignment that `fw_pool_init` uses is a power of two, and at least that of a pointer. -/
theorem alignment_pow (hpos : alignment ≠ 0) (htest : alignment &&& (alignment - 1) = 0) :
    ∃ k, (if alignment < T.ptrSize then T.ptrSize else alignment) = 2 ^ k := by
  split
  · rcases T.ptrSize_eq with hptr | hptr
    · exact ⟨2, hptr⟩
    · exact ⟨3, hptr⟩
  · exact PowerOfTwo.pow_of_and_pred hpos htest

/-- It is a multiple of the alignment that was asked for. -/
theorem alignment_dvd (hpos : alignment ≠ 0) (htest : alignment &&& (alignment - 1) = 0) :
    alignment ∣ if alignment < T.ptrSize then T.ptrSize else alignment := by
  split
  · next hlt =>
      refine PowerOfTwo.dvd_of_lt (PowerOfTwo.pow_of_and_pred hpos htest) ?_ hlt
      rcases T.ptrSize_eq with hptr | hptr
      · exact ⟨2, hptr⟩
      · exact ⟨3, hptr⟩
  · exact Nat.dvd_refl _

/-- A larger power of two is at least twice as large. -/
theorem double_le (hpow : ∃ k, alignment = 2 ^ k) (hlt : alignment < T.sizeMod) :
    2 * alignment ≤ T.sizeMod := by
  obtain ⟨k, rfl⟩ := hpow
  rw [Nat.mul_comm, ← Nat.pow_succ]
  exact Nat.pow_le_pow_right (by decide) ((Nat.pow_lt_pow_iff_right (by decide)).mp hlt)

/-- Room that is left for blocks implies that aligning the block size did not overflow. -/
theorem alignedBlockSize_bounds (hpow : ∃ k, alignment = 2 ^ k) (hlt : alignment < T.sizeMod)
    (hblock : blockSize < T.sizeMod) {room : Nat}
    (hroom : room / T.alignUp blockSize alignment ≠ 0) :
    blockSize ≤ T.alignUp blockSize alignment ∧ alignment ∣ T.alignUp blockSize alignment := by
  by_cases hover : T.sizeMod ≤ blockSize + (alignment - 1)
  · rw [Target.alignUp_overflow hpow hlt hblock hover, Nat.div_zero] at hroom
    exact absurd rfl hroom
  · obtain ⟨hle, -, hdvd⟩ := Target.alignUp_bounds hpow hlt (Nat.lt_of_not_le hover)
    exact ⟨hle, hdvd⟩

/-- Room in the buffer implies that aligning its start did not overflow. -/
theorem alignedStart_bounds (hpow : ∃ k, alignment = 2 ^ k) (hlt : alignment < T.sizeMod)
    (hbuffer : buffer < T.sizeMod) (hobject : buffer + bufferSize ≤ T.sizeMod)
    (hroom : ¬ bufferSize ≤ T.sizeSub (T.alignUp buffer alignment) buffer) :
    buffer ≤ T.alignUp buffer alignment ∧
      T.sizeSub (T.alignUp buffer alignment) buffer = T.alignUp buffer alignment - buffer ∧
      alignment ∣ T.alignUp buffer alignment := by
  by_cases hover : T.sizeMod ≤ buffer + (alignment - 1)
  · rw [Target.alignUp_overflow hpow hlt (by omega) hover, Target.sizeSub, Target.size,
      Nat.mod_eq_of_lt (by omega)] at hroom
    omega
  · obtain ⟨hle, -, hdvd⟩ := Target.alignUp_bounds hpow hlt (Nat.lt_of_not_le hover)
    exact ⟨hle, T.sizeSub_of_le hle (Target.alignUp_lt hpow hlt), hdvd⟩

/-- The shift is the logarithm of the block size, or zero. -/
theorem blockShift_eq {size : Nat} (hsize : size < T.sizeMod)
    (hshift : (if size &&& (size - 1) = 0 then shiftLoop 64 size 0 else 0) > 0) :
    size = 2 ^ (if size &&& (size - 1) = 0 then shiftLoop 64 size 0 else 0) := by
  by_cases htest : size &&& (size - 1) = 0
  · rw [if_pos htest] at hshift ⊢
    by_cases hzero : size = 0
    · subst hzero
      exact absurd hshift (Nat.lt_irrefl 0)
    · obtain ⟨k, rfl⟩ := PowerOfTwo.pow_of_and_pred hzero htest
      have hk : k < 8 * T.ptrSize := (Nat.pow_lt_pow_iff_right (by decide)).mp hsize
      have hfuel : k ≤ 64 := by rcases T.ptrSize_eq with hptr | hptr <;> omega
      rw [shiftLoop_pow hfuel, Nat.zero_add]
  · rw [if_neg htest] at hshift
    exact absurd hshift (Nat.lt_irrefl 0)

end Sizes

/-- Zero bytes are the number zero. -/
theorem load_fill_zero {a b n k : Nat} (hlow : b ≤ a) (hhigh : a + n ≤ b + k) :
    (m.fill b k 0).load a n = 0 := by
  induction n generalizing a with
  | zero => rfl
  | succ n ih =>
      rw [ByteMemory.load, ih (by omega) (by omega), ByteMemory.fill, if_pos (by omega)]
      rfl

/-- A cleared bitmap and linked blocks make a pool whose blocks are all free. -/
theorem linkLoop_represents {bitmapBytes : Nat} (hlayout : pool.Layout T)
    (hstorage : pool.storage = pool.allocBitmap + bitmapBytes)
    (hcount : pool.freeCount = pool.capacity) {linked : ByteMemory × Nat}
    (hlinked : linked = linkLoop T pool.blockSize pool.capacity pool.storage none
      (m.fill pool.allocBitmap bitmapBytes 0, fwNull))
    (hlist : pool.freeList = linked.2) :
    pool.Represents T linked.1 (List.range pool.capacity) ∧
      ∀ x, (x < pool.allocBitmap ∨ pool.storage + pool.capacity * pool.blockSize ≤ x) →
        linked.1 x = m x := by
  have houtside : ∀ x, x < pool.storage ∨ pool.storage + pool.capacity * pool.blockSize ≤ x →
      linked.1 x = m.fill pool.allocBitmap bitmapBytes 0 x := by
    intro x hx
    rw [hlinked]
    exact linkLoop_outside hlayout.ptrSize_le hlayout.storage_end (fun a ha => nomatch ha) hx
  refine ⟨⟨hlayout, List.nodup_range, fun i hi => List.mem_range.mp hi, ?_, ?_, ?_⟩, ?_⟩
  · rw [hlist, hlinked]
    change Linked _ _ ([] ++ blocksFrom pool.blockSize pool.storage pool.capacity) fwNull
    apply linkLoop_linked hlayout.ptrSize_le hlayout.storage_end
    · exact fun x hx => (List.not_mem_nil hx).elim
    · exact fun node _ => Linked.nil node
  · intro i hi
    have hword := hlayout.word_end hi
    have hzero : linked.1.loadWord (ByteMemory.wordOf pool.allocBitmap i) = 0#32 := by
      have hagree : ByteMemory.AgreeOn linked.1 (m.fill pool.allocBitmap bitmapBytes 0)
          (ByteMemory.wordOf pool.allocBitmap i) (ByteMemory.wordOf pool.allocBitmap i + 4) :=
        fun x _ hx => houtside x (Or.inl (by omega))
      have hle : pool.allocBitmap ≤ ByteMemory.wordOf pool.allocBitmap i := Nat.le_add_right _ _
      rw [ByteMemory.AgreeOn.loadWord_eq hagree, ByteMemory.loadWord,
        load_fill_zero hle (by omega)]
    rw [ByteMemory.bitAt, hzero, BitVec.getLsbD_zero]
    simp [hi]
  · rw [hcount, List.length_range]
  · intro x hx
    rw [houtside x (by omega), ByteMemory.fill_outside]
    have hle := hlayout.storage_pos
    omega

/-- What a successful `fw_pool_init` makes of its arguments. -/
structure FwPool.Built (T : Target) (m : ByteMemory) (buffer bufferSize blockSize alignment : Nat)
    (pool : FwPool) (m' : ByteMemory) : Prop where
  ptrSize_le : T.ptrSize ≤ pool.blockSize
  blockSize_le : blockSize ≤ pool.blockSize
  shift : pool.blockShift > 0 → pool.blockSize = 2 ^ pool.blockShift
  size_eq : pool.storageSize = pool.capacity * pool.blockSize
  capacity_pos : 0 < pool.capacity
  bitmap_start : buffer ≤ pool.allocBitmap
  bitmap_end : pool.allocBitmap + 4 * ((pool.capacity + 31) / 32) ≤ pool.storage
  storage_end : pool.storage + pool.capacity * pool.blockSize ≤ buffer + bufferSize
  alignment_dvd : alignment ∣ pool.alignment
  storage_aligned : pool.alignment ∣ pool.storage
  blockSize_aligned : pool.alignment ∣ pool.blockSize
  count : pool.freeCount = pool.capacity
  linked : (m', pool.freeList) = linkLoop T pool.blockSize pool.capacity pool.storage none
    (m.fill pool.allocBitmap (pool.storage - pool.allocBitmap) 0, fwNull)

/-- `fw_pool_init` succeeds only if it finds room for the bitmap and a block. -/
theorem fwPoolInit_built {buffer bufferSize blockSize alignment : Nat}
    (hbuffer : buffer < T.sizeMod) (hobject : buffer + bufferSize ≤ T.sizeMod)
    (hbufferSize : bufferSize < T.sizeMod) (hblock : blockSize < T.sizeMod)
    (halign : alignment < T.sizeMod)
    (hinit : fwPoolInit T m buffer bufferSize blockSize alignment = .ok (pool, m')) :
    pool.Built T m buffer bufferSize blockSize alignment m' := by
  rw [fwPoolInit] at hinit
  split at hinit
  · cases hinit
  next hnull =>
  split at hinit
  · cases hinit
  next htest =>
  rw [not_or, not_not] at htest
  have hmod := T.sizeMod_ge
  have hptr : T.ptrSize = 4 ∨ T.ptrSize = 8 := T.ptrSize_eq
  have hpow := alignment_pow (T := T) htest.1 htest.2
  have hrequested := alignment_dvd (T := T) htest.1 htest.2
  have halign' : (if alignment < T.ptrSize then T.ptrSize else alignment) < T.sizeMod := by
    split <;> omega
  have hptrAlign : T.ptrSize ≤ if alignment < T.ptrSize then T.ptrSize else alignment := by
    split <;> omega
  have hblock' : (if blockSize < T.ptrSize then T.ptrSize else blockSize) < T.sizeMod := by
    split <;> omega
  have hptrBlock : T.ptrSize ≤ if blockSize < T.ptrSize then T.ptrSize else blockSize := by
    split <;> omega
  have hblockLe : blockSize ≤ if blockSize < T.ptrSize then T.ptrSize else blockSize := by
    split <;> omega
  dsimp only at hinit
  generalize (if alignment < T.ptrSize then T.ptrSize else alignment) = align at *
  generalize (if blockSize < T.ptrSize then T.ptrSize else blockSize) = size at *
  split at hinit
  · cases hinit
  next hroom =>
  split at hinit
  · cases hinit
  next hbitmap =>
  split at hinit
  · cases hinit
  next hcapacity =>
  obtain ⟨hstart, hoverhead, hstartDvd⟩ := alignedStart_bounds hpow halign' hbuffer hobject hroom
  obtain ⟨hsize, hsizeDvd⟩ := alignedBlockSize_bounds hpow halign' hblock' hcapacity
  have hsizeLt : T.alignUp size align < T.sizeMod := Target.alignUp_lt hpow halign'
  rw [hoverhead] at hinit hbitmap hroom hcapacity
  generalize T.alignUp buffer align = start at *
  generalize T.alignUp size align = bs at *
  generalize husable : bufferSize - (start - buffer) = usable at *
  -- the bitmap of the estimated capacity
  have hdouble := double_le hpow halign'
  have hestimate : usable / bs * 4 ≤ usable :=
    Nat.le_trans (Nat.mul_le_mul_left _ (by omega)) (Nat.div_mul_le_self usable bs)
  have hcount : T.size (usable / bs + 31) = usable / bs + 31 := Nat.mod_eq_of_lt (by omega)
  have hbytes : T.size ((usable / bs + 31) / 32 * 4) = (usable / bs + 31) / 32 * 4 :=
    Nat.mod_eq_of_lt (by omega)
  rw [hcount, hbytes] at hinit hbitmap hcapacity
  have hfits : (usable / bs + 31) / 32 * 4 + (align - 1) < T.sizeMod := by omega
  obtain ⟨hbits, -, hbitsDvd⟩ := Target.alignUp_bounds hpow halign' hfits
  generalize T.alignUp ((usable / bs + 31) / 32 * 4) align = bitmapBytes at *
  -- the blocks behind it
  have hblocks : (usable - bitmapBytes) / bs * bs ≤ usable - bitmapBytes :=
    Nat.div_mul_le_self _ _
  have hfewer : (usable - bitmapBytes) / bs ≤ usable / bs :=
    Nat.div_le_div_right (Nat.sub_le _ _)
  have hend : T.size (start + bitmapBytes) = start + bitmapBytes := Nat.mod_eq_of_lt (by omega)
  have hstorageDvd := Nat.dvd_add hstartDvd hbitsDvd
  rw [hend, Target.alignUp_of_dvd hpow halign' (by omega) hstorageDvd] at hinit
  generalize (usable - bitmapBytes) / bs = capacity at *
  have htotal : T.size (capacity * bs) = capacity * bs := Nat.mod_eq_of_lt (by omega)
  rw [htotal] at hinit
  have hshift := blockShift_eq hsizeLt
  generalize (if bs &&& (bs - 1) = 0 then shiftLoop 64 bs 0 else 0) = shift at *
  obtain ⟨hpool, rfl⟩ := Prod.mk.inj (Except.ok.inj hinit)
  rw [← hpool]
  exact ⟨by dsimp only; omega, by dsimp only; omega, hshift, rfl, Nat.pos_of_ne_zero hcapacity,
    hstart, by dsimp only; omega, by dsimp only; omega, hrequested, hstorageDvd, hsizeDvd, rfl,
    by dsimp only; rw [Nat.add_sub_cancel_left]⟩

/-- After a successful initialisation all blocks are free, in the order of their addresses, the
pool lies inside of its buffer, and nothing else has changed. -/
theorem fwPoolInit_represents {buffer bufferSize blockSize alignment : Nat}
    (hobject : buffer + bufferSize < T.sizeMod) (hblock : blockSize < T.sizeMod)
    (halign : alignment < T.sizeMod)
    (hinit : fwPoolInit T m buffer bufferSize blockSize alignment = .ok (pool, m')) :
    pool.Represents T m' (List.range pool.capacity) ∧ 0 < pool.capacity ∧
      buffer ≤ pool.allocBitmap ∧
      pool.storage + pool.capacity * pool.blockSize ≤ buffer + bufferSize ∧
      ∀ x, (x < pool.allocBitmap ∨ pool.storage + pool.capacity * pool.blockSize ≤ x) →
        m' x = m x := by
  have hbuilt := fwPoolInit_built (by omega) (Nat.le_of_lt hobject) (by omega) hblock halign hinit
  have hpos := hbuilt.capacity_pos
  have hbitmap := hbuilt.bitmap_end
  have hend := hbuilt.storage_end
  have hlayout : pool.Layout T :=
    ⟨hbuilt.ptrSize_le, hbuilt.shift, hbuilt.size_eq, by omega, by omega, hbitmap⟩
  obtain ⟨hmem, hlist⟩ := Prod.mk.inj hbuilt.linked
  obtain ⟨hrepresents, houtside⟩ :=
    linkLoop_represents (m := m) hlayout (by omega) hbuilt.count rfl hlist
  rw [← hmem] at hrepresents houtside
  exact ⟨hrepresents, hpos, hbuilt.bitmap_start, hend, houtside⟩

end ZeroEmbedded.Memory
