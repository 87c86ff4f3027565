import ZeroEmbedded.Foundation.Runs
import ZeroEmbedded.Memory.PoolInit

/-!
# Runs of a block pool

Clients allocate, free whatever pointer they like, and write into the blocks
they hold. Along every run the free list, the bitmap and the set of held blocks
agree.
-/

namespace ZeroEmbedded.Memory

open Foundation

/-- A pool in its memory, and the blocks that clients hold. -/
structure PoolState where
  mem : ByteMemory
  pool : FwPool
  held : List Nat

/-- What a step of a client shows. -/
inductive PoolEvent
  | allocated (block : Nat)
  | freed (block : Nat) (status : FwStatus)
  | written

/-- The memory outside of the held blocks is unchanged. -/
def WritesHeld (blockSize : Nat) (held : List Nat) (m m' : ByteMemory) : Prop :=
  ∀ x, (∀ b ∈ held, x < b ∨ b + blockSize ≤ x) → m' x = m x

/-- The steps of clients. -/
inductive PoolStep (T : Target) (assert : Bool) : PoolState → PoolEvent → PoolState → Prop
  | alloc (s : PoolState) :
      PoolStep T assert s (.allocated (fwPoolAlloc T s.mem s.pool).1)
        { mem := (fwPoolAlloc T s.mem s.pool).2.2
          pool := (fwPoolAlloc T s.mem s.pool).2.1
          held := if (fwPoolAlloc T s.mem s.pool).1 = fwNull then s.held
            else (fwPoolAlloc T s.mem s.pool).1 :: s.held }
  | free (s : PoolState) (block : Nat) :
      PoolStep T assert s (.freed block (fwPoolFree T assert s.mem s.pool block).1)
        { mem := (fwPoolFree T assert s.mem s.pool block).2.2
          pool := (fwPoolFree T assert s.mem s.pool block).2.1
          held := if (fwPoolFree T assert s.mem s.pool block).1 = .ok
            then s.held.filter (· ≠ block) else s.held }
  | write (s : PoolState) (mem : ByteMemory)
      (held : WritesHeld s.pool.blockSize s.held s.mem mem) :
      PoolStep T assert s .written { s with mem := mem }

variable {T : Target} {assert : Bool} {m : ByteMemory} {pool : FwPool} {free held : List Nat}

namespace FwPool

/-- The held blocks are those that are not free. -/
structure Sound (T : Target) (m : ByteMemory) (pool : FwPool) (free held : List Nat) : Prop where
  represents : pool.Represents T m free
  capacity_pos : 0 < pool.capacity
  held_iff : ∀ b, b ∈ held ↔ ∃ i < pool.capacity, i ∉ free ∧ b = pool.addr i

namespace Sound

/-- Writes into held blocks leave the pool alone. -/
theorem writing {m' : ByteMemory} (h : Sound T m pool free held)
    (hwrite : WritesHeld pool.blockSize held m m') : Sound T m' pool free held where
  represents := by
    apply h.represents.congr
    · intro x _ hx
      refine (hwrite x fun b hb => Or.inl ?_).symm
      obtain ⟨i, -, -, rfl⟩ := (h.held_iff b).mp hb
      exact Nat.lt_of_lt_of_le hx (Nat.le_add_right _ _)
    · intro j hj x hlow hhigh
      refine (hwrite x fun b hb => ?_).symm
      obtain ⟨i, -, hi, rfl⟩ := (h.held_iff b).mp hb
      have hdisjoint := pool.addr_disjoint (i := i) (j := j) (by rintro rfl; exact hi hj)
      omega
  capacity_pos := h.capacity_pos
  held_iff := h.held_iff

/-- Allocation hands out a free block, or nothing when all blocks are held. -/
theorem allocating (h : Sound T m pool free held) :
    (free = [] ∧ fwPoolAlloc T m pool = (fwNull, pool, m)) ∨
    ∃ i rest next, free = i :: rest ∧ fwPoolAlloc T m pool = (pool.addr i,
        { pool with freeList := next, freeCount := rest.length },
        m.setBit pool.allocBitmap i) ∧
      Sound T (m.setBit pool.allocBitmap i)
        { pool with freeList := next, freeCount := rest.length } rest (pool.addr i :: held) := by
  cases free with
  | nil => exact Or.inl ⟨rfl, h.represents.alloc_nil⟩
  | cons i rest =>
      obtain ⟨next, halloc, hrepresents⟩ := h.represents.alloc_cons
      refine Or.inr ⟨i, rest, next, rfl, halloc, hrepresents, h.capacity_pos, ?_⟩
      intro b
      rw [List.mem_cons, h.held_iff b]
      constructor
      · rintro (rfl | ⟨j, hj, hfree, rfl⟩)
        · exact ⟨i, h.represents.lt i List.mem_cons_self,
            (List.nodup_cons.mp h.represents.nodup).1, rfl⟩
        · exact ⟨j, hj, fun hrest => hfree (List.mem_cons_of_mem _ hrest), rfl⟩
      · rintro ⟨j, hj, hrest, rfl⟩
        by_cases heq : j = i
        · rw [heq]
          exact Or.inl rfl
        · exact Or.inr ⟨j, hj, fun hfree => (List.mem_cons.mp hfree).elim heq hrest, rfl⟩

/-- Freeing takes back a held block and rejects every other pointer. -/
theorem freeing (assert : Bool) (h : Sound T m pool free held) (block : Nat) :
    (block ∉ held ∧ fwPoolFree T assert m pool block = (.errInvalidArg, pool, m)) ∨
    ∃ i < pool.capacity, block = pool.addr i ∧ i ∉ free ∧
      fwPoolFree T assert m pool block = (.ok,
        { pool with freeList := pool.addr i, freeCount := free.length + 1 },
        pool.freed T assert m i) ∧
      Sound T (pool.freed T assert m i)
        { pool with freeList := pool.addr i, freeCount := free.length + 1 } (i :: free)
        (held.filter (· ≠ block)) := by
  by_cases hheld : block ∈ held
  · obtain ⟨i, hi, hfree, rfl⟩ := (h.held_iff block).mp hheld
    obtain ⟨hok, hrepresents⟩ := h.represents.free_ok assert hi hfree
    refine Or.inr ⟨i, hi, rfl, hfree, hok, hrepresents, h.capacity_pos, ?_⟩
    intro b
    rw [List.mem_filter, h.held_iff b, decide_eq_true_eq]
    constructor
    · rintro ⟨⟨j, hj, hjfree, rfl⟩, hne⟩
      refine ⟨j, hj, ?_, rfl⟩
      rw [List.mem_cons, not_or]
      exact ⟨fun heq => hne (congrArg pool.addr heq), hjfree⟩
    · rintro ⟨j, hj, hjfree, rfl⟩
      rw [List.mem_cons, not_or] at hjfree
      exact ⟨⟨j, hj, hjfree.2, rfl⟩,
        fun heq => hjfree.1 (h.represents.layout.addr_inj heq)⟩
  · refine Or.inl ⟨hheld, h.represents.free_error h.capacity_pos fun i hi heq => ?_⟩
    by_contra hfree
    exact hheld ((h.held_iff block).mpr ⟨i, hi, hfree, heq⟩)

end Sound

end FwPool

/-- A step keeps the invariant. -/
theorem PoolStep.sound {s s' : PoolState} {e : PoolEvent} (hstep : PoolStep T assert s e s')
    (h : ∃ free, FwPool.Sound T s.mem s.pool free s.held) :
    ∃ free, FwPool.Sound T s'.mem s'.pool free s'.held := by
  obtain ⟨free, h⟩ := h
  cases hstep with
  | alloc =>
      obtain ⟨-, halloc⟩ | ⟨i, rest, next, -, halloc, hsound⟩ := h.allocating
      · rw [halloc]
        exact ⟨free, h⟩
      · rw [halloc]
        dsimp only
        rw [if_neg (h.represents.layout.addr_ne_null i)]
        exact ⟨rest, hsound⟩
  | free block =>
      obtain ⟨-, hfree⟩ | ⟨i, -, -, -, hfree, hsound⟩ := h.freeing assert block
      · rw [hfree]
        exact ⟨free, h⟩
      · rw [hfree]
        exact ⟨i :: free, hsound⟩
  | write mem hwrite => exact ⟨free, h.writing hwrite⟩

/-- What holds in every state of a run: the free list visits the blocks with a cleared bit, a
block is allocated unless all are held, and exactly the held blocks can be freed. -/
structure PoolState.Correct (T : Target) (assert : Bool) (s : PoolState) : Prop where
  freeList : ∃ blocks : List Nat,
    Linked (fun a => s.mem.load a T.ptrSize) s.pool.freeList blocks fwNull ∧ fwNull ∉ blocks ∧
      blocks.Nodup ∧ s.pool.freeCount = blocks.length ∧
      ∀ b, b ∈ blocks ↔ ∃ i < s.pool.capacity,
        b = s.pool.addr i ∧ s.mem.bitAt s.pool.allocBitmap i = false
  alloc_null : (fwPoolAlloc T s.mem s.pool).1 = fwNull ↔
    ∀ i < s.pool.capacity, s.pool.addr i ∈ s.held
  alloc_block : (fwPoolAlloc T s.mem s.pool).1 ≠ fwNull →
    (∃ i < s.pool.capacity, (fwPoolAlloc T s.mem s.pool).1 = s.pool.addr i) ∧
      (fwPoolAlloc T s.mem s.pool).1 ∉ s.held
  free_ok : ∀ block, (fwPoolFree T assert s.mem s.pool block).1 = .ok ↔ block ∈ s.held
  free_rejected : ∀ block, block ∉ s.held →
    fwPoolFree T assert s.mem s.pool block = (.errInvalidArg, s.pool, s.mem)

namespace FwPool.Sound

theorem addr_mem_held {i : Nat} (h : Sound T m pool free held) (hi : i < pool.capacity) :
    pool.addr i ∈ held ↔ i ∉ free := by
  rw [h.held_iff]
  constructor
  · rintro ⟨j, -, hj, heq⟩
    rwa [h.represents.layout.addr_inj heq]
  · intro hfree
    exact ⟨i, hi, hfree, rfl⟩

theorem correct (assert : Bool) (h : Sound T m pool free held) :
    PoolState.Correct T assert ⟨m, pool, held⟩ where
  freeList := by
    refine ⟨free.map pool.addr, h.represents.linked, ?_, ?_, ?_, ?_⟩
    · intro hnull
      obtain ⟨i, -, hi⟩ := List.mem_map.mp hnull
      exact h.represents.layout.addr_ne_null i hi
    · exact h.represents.nodup.map fun i j heq => h.represents.layout.addr_inj heq
    · rw [List.length_map]
      exact h.represents.count
    · intro b
      rw [List.mem_map]
      constructor
      · rintro ⟨i, hi, rfl⟩
        have hlt := h.represents.lt i hi
        refine ⟨i, hlt, rfl, ?_⟩
        apply eq_false_of_ne_true
        intro hbit
        exact (h.represents.bits i hlt).mp hbit hi
      · rintro ⟨i, hlt, rfl, hbit⟩
        refine ⟨i, ?_, rfl⟩
        by_contra hi
        have hset := (h.represents.bits i hlt).mpr hi
        rw [hbit] at hset
        exact Bool.false_ne_true hset
  alloc_null := by
    obtain ⟨rfl, halloc⟩ | ⟨i, rest, next, rfl, halloc, -⟩ := h.allocating
    · rw [halloc]
      exact iff_of_true rfl fun i hi => (h.addr_mem_held hi).mpr List.not_mem_nil
    · rw [halloc]
      refine iff_of_false (h.represents.layout.addr_ne_null i) ?_
      intro hall
      have hi := h.represents.lt i List.mem_cons_self
      exact (h.addr_mem_held hi).mp (hall i hi) List.mem_cons_self
  alloc_block := by
    obtain ⟨-, halloc⟩ | ⟨i, rest, next, rfl, halloc, -⟩ := h.allocating
    · rw [halloc]
      exact fun hne => absurd rfl hne
    · rw [halloc]
      have hi := h.represents.lt i List.mem_cons_self
      exact fun _ => ⟨⟨i, hi, rfl⟩, fun hheld => (h.addr_mem_held hi).mp hheld List.mem_cons_self⟩
  free_ok block := by
    obtain ⟨hheld, hfree⟩ | ⟨i, hi, rfl, hifree, hfree, -⟩ := h.freeing assert block
    · rw [hfree]
      exact iff_of_false FwStatus.noConfusion hheld
    · rw [hfree]
      exact iff_of_true rfl ((h.addr_mem_held hi).mpr hifree)
  free_rejected block hheld := by
    obtain ⟨-, hfree⟩ | ⟨i, hi, rfl, hifree, -⟩ := h.freeing assert block
    · exact hfree
    · exact absurd ((h.addr_mem_held hi).mpr hifree) hheld

/-- A pool whose blocks are all free. -/
theorem initial (h : pool.Represents T m (List.range pool.capacity)) (hpos : 0 < pool.capacity) :
    Sound T m pool (List.range pool.capacity) [] where
  represents := h
  capacity_pos := hpos
  held_iff b := by
    refine iff_of_false List.not_mem_nil ?_
    rintro ⟨i, hi, hfree, -⟩
    exact hfree (List.mem_range.mpr hi)

end FwPool.Sound

/-- After a successful initialisation, free list, bitmap and held blocks agree along every run,
whatever is passed to `fw_pool_free` and whatever clients write into their blocks. -/
theorem fwPool_correct {buffer bufferSize blockSize alignment : Nat} {m' : ByteMemory}
    {es : List PoolEvent} {s : PoolState} (hobject : buffer + bufferSize < T.sizeMod)
    (hblock : blockSize ≤ bufferSize) (halign : alignment < T.sizeMod)
    (hinit : fwPoolInit T m buffer bufferSize blockSize alignment = .ok (pool, m'))
    (hrun : Run (PoolStep T assert) ⟨m', pool, []⟩ es s) : s.Correct T assert := by
  have hsize : blockSize < T.sizeMod := by omega
  obtain ⟨hrepresents, hpos, -⟩ := fwPoolInit_represents hobject hsize halign hinit
  have hstart := FwPool.Sound.initial hrepresents hpos
  have hsound : ∃ free, FwPool.Sound T s.mem s.pool free s.held :=
    hrun.invariant (fun t _ => ∃ free, FwPool.Sound T t.mem t.pool free t.held) ⟨_, hstart⟩
      fun _ _ _ _ h hstep => hstep.sound h
  obtain ⟨free, hfree⟩ := hsound
  exact hfree.correct assert

/-- Three blocks of eight bytes behind a bitmap at address 16. -/
def samplePool : FwPool :=
  { storage := 20, storageSize := 24, blockSize := 8, alignment := 4, capacity := 3,
    freeCount := 3, freeList := 20, allocBitmap := 16, blockShift := 3 }

/-- The memory of `samplePool` after its initialisation. -/
def sampleMemory : ByteMemory :=
  (linkLoop target32 8 3 20 none (ByteMemory.fill (fun _ => 0) 16 4 0, fwNull)).1

theorem samplePool_init : fwPoolInit ⟨4, Or.inl rfl⟩ (fun _ => 0) 16 32 8 4 =
    .ok (samplePool, sampleMemory) := rfl

theorem fwPool_correct_sample :
    ∃ s : PoolState, s.held = [28] ∧ s.pool.freeList = 20 ∧ s.Correct ⟨4, Or.inl rfl⟩ true := by
  have hfirst : Run (PoolStep ⟨4, Or.inl rfl⟩ true) ⟨sampleMemory, samplePool, []⟩ _ _ :=
    Run.single (PoolStep.alloc _)
  have hsecond := hfirst.snoc (PoolStep.alloc _)
  have hthird := hsecond.snoc (PoolStep.free _ 20)
  have hcorrect := fwPool_correct (by decide) (by decide) (by decide) samplePool_init hthird
  refine ⟨_, ?_, ?_, hcorrect⟩
  · decide +kernel
  · decide +kernel

end ZeroEmbedded.Memory
