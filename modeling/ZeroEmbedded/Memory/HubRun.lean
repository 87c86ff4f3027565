import ZeroEmbedded.Foundation.Intervals
import ZeroEmbedded.Foundation.Runs
import ZeroEmbedded.Memory.Hub

/-!
# Runs of the memory hub

A request is served by the first backend in the search order that accepts it,
where the tests of all backends depend on the state before the request. Every
call keeps the pools and arenas in order.
-/

namespace ZeroEmbedded.Memory

open Foundation Foundation.Intervals

/-- The bitmap and the blocks of a pool, by start and length. -/
def FwPool.extent (pool : FwPool) : Nat × Nat :=
  (pool.allocBitmap, pool.storage + pool.capacity * pool.blockSize - pool.allocBitmap)

namespace FwPool

variable {T : Target} {m : ByteMemory} {pool : FwPool} {free : List Nat} {i x : Nat}

theorem Layout.bitmap_le (h : pool.Layout T) : pool.allocBitmap ≤ pool.storage :=
  Nat.le_trans (Nat.le_add_right _ _) h.bitmap_end

theorem Layout.extent_end (h : pool.Layout T) :
    pool.extent.1 + pool.extent.2 = pool.storage + pool.capacity * pool.blockSize := by
  have hle := h.bitmap_le
  rw [extent]
  dsimp only
  omega

/-- A bit is set and cleared inside of the pool. -/
theorem Layout.word_inside (h : pool.Layout T) (hi : i < pool.capacity)
    (hx : x < pool.allocBitmap ∨ pool.storage + pool.capacity * pool.blockSize ≤ x) :
    x + 1 ≤ ByteMemory.wordOf pool.allocBitmap i ∨
      ByteMemory.wordOf pool.allocBitmap i + 4 ≤ x := by
  have hword := h.word_end hi
  have hle : pool.allocBitmap ≤ ByteMemory.wordOf pool.allocBitmap i := Nat.le_add_right _ _
  omega

theorem Layout.setBit_outside (h : pool.Layout T) (hi : i < pool.capacity)
    (hx : x < pool.allocBitmap ∨ pool.storage + pool.capacity * pool.blockSize ≤ x) :
    m.setBit pool.allocBitmap i x = m x :=
  ByteMemory.setBit_agreeOn (h.word_inside hi hx) x (Nat.le_refl x) (Nat.lt_succ_self x)

theorem Represents.freed_same {assert : Bool} (h : pool.Represents T m free)
    (hi : i < pool.capacity)
    (hx : x < pool.allocBitmap ∨ pool.storage + pool.capacity * pool.blockSize ≤ x) :
    pool.freed T assert m i x = m x := by
  have hend := addr_end hi
  have hle := h.layout.bitmap_le
  have hstart : pool.storage ≤ pool.addr i := Nat.le_add_right _ _
  rw [h.freed_outside (by omega)]
  exact ByteMemory.clearBit_agreeOn (h.layout.word_inside hi hx) x (Nat.le_refl x)
    (Nat.lt_succ_self x)

/-- A pointer is rejected, or it is a block that is not free and is taken back. -/
theorem Represents.free_cases (assert : Bool) (h : pool.Represents T m free)
    (hpos : 0 < pool.capacity) (p : Nat) :
    ((∀ i < pool.capacity, p = pool.addr i → i ∈ free) ∧
      fwPoolFree T assert m pool p = (.errInvalidArg, pool, m)) ∨
    ∃ i < pool.capacity, p = pool.addr i ∧ i ∉ free ∧
      fwPoolFree T assert m pool p = (.ok,
        { pool with freeList := pool.addr i, freeCount := free.length + 1 },
        pool.freed T assert m i) ∧
      FwPool.Represents T (pool.freed T assert m i)
        { pool with freeList := pool.addr i, freeCount := free.length + 1 } (i :: free) := by
  by_cases hheld : ∀ i < pool.capacity, p = pool.addr i → i ∈ free
  · exact Or.inl ⟨hheld, h.free_error hpos hheld⟩
  · push Not at hheld
    obtain ⟨i, hi, rfl, hfree⟩ := hheld
    exact Or.inr ⟨i, hi, rfl, hfree, h.free_ok assert hi hfree⟩

/-- A block lies in the range that `fw_mem_hub_free` tests. -/
theorem Represents.addr_range (h : pool.Represents T m free) (hi : i < pool.capacity) :
    pool.addr i ≥ pool.storage ∧
      pool.addr i < T.size (pool.storage + pool.storageSize) := by
  have hend := addr_end hi
  have hpos := h.layout.blockSize_pos
  refine ⟨Nat.le_add_right _ _, ?_⟩
  rw [h.end_eq]
  omega

end FwPool

namespace Heap

/-- `free_count * block_size` of a pool, `capacity - offset` of an arena. -/
def freeBytes (heap : Heap) : FwMemHandle → Nat
  | .pool p => (heap.pools p).freeCount * (heap.pools p).blockSize
  | .arena a => (heap.arenas a).capacity - (heap.arenas a).offset

/-- The bytes that a request takes: a block, or the padding and the size. -/
def taken (T : Target) (heap : Heap) (size : Nat) : FwMemHandle → Nat
  | .pool p => (heap.pools p).blockSize
  | .arena a => (heap.arenas a).padding T 4 + size

/-- The bytes that are counted for a request: a block, or the size. -/
def counted (heap : Heap) (size : Nat) : FwMemHandle → Nat
  | .pool p => (heap.pools p).blockSize
  | .arena _ => size

/-- The tests of a backend: the margin without the padding, and the room of the allocator. -/
def accepts (T : Target) (heap : Heap) (size : Nat) (b : FwMemBackend) : Bool :=
  match b.handle with
  | .pool p => size ≤ (heap.pools p).blockSize ∧
      b.reserveBytes + (heap.pools p).blockSize ≤ heap.freeBytes (.pool p)
  | .arena a => b.reserveBytes + size ≤ heap.freeBytes (.arena a) ∧
      heap.taken T size (.arena a) ≤ heap.freeBytes (.arena a)

/-- The address that a request receives and the heap afterwards. -/
def serve (T : Target) (heap : Heap) (size : Nat) : FwMemHandle → Nat × Heap
  | .pool p =>
      let r := fwPoolAlloc T heap.mem (heap.pools p)
      (r.1, { heap with mem := r.2.2, pools := Function.update heap.pools p r.2.1 })
  | .arena a =>
      let r := (heap.arenas a).bumped T size 4
      (r.1, { heap with arenas := Function.update heap.arenas a r.2 })

/-- Registered pools and arenas in order. -/
structure Valid (T : Target) (heap : Heap) (handles : List FwMemHandle) : Prop where
  pool : ∀ p, .pool p ∈ handles → ∃ free, (heap.pools p).Represents T heap.mem free
  capacity_pos : ∀ p, .pool p ∈ handles → 0 < (heap.pools p).capacity
  arena : ∀ a, .arena a ∈ handles → (heap.arenas a).Valid T
  apart : ∀ p q, .pool p ∈ handles → .pool q ∈ handles → p ≠ q →
    Apart (heap.pools p).extent (heap.pools q).extent

variable {T : Target} {heap : Heap} {handles : List FwMemHandle} {b : FwMemBackend}
  {p size : Nat} {hub : FwMemHub} {hints : UInt32}

namespace Valid

/-- One pool changes inside of its extent. -/
theorem replace (h : heap.Valid T handles) (hp : .pool p ∈ handles) {mem : ByteMemory}
    {list count : Nat} {free : List Nat}
    (hrepresents : FwPool.Represents T mem
      { heap.pools p with freeList := list, freeCount := count } free)
    (houtside : ∀ x, (x < (heap.pools p).allocBitmap ∨
      (heap.pools p).storage + (heap.pools p).capacity * (heap.pools p).blockSize ≤ x) →
        mem x = heap.mem x) :
    Valid T { heap with
      mem := mem
      pools := Function.update heap.pools p
        { heap.pools p with freeList := list, freeCount := count } } handles where
  pool q hq := by
    dsimp only
    by_cases heq : q = p
    · subst heq
      rw [Function.update_self]
      exact ⟨free, hrepresents⟩
    · rw [Function.update_of_ne heq]
      obtain ⟨free', hfree'⟩ := h.pool q hq
      have hapart := h.apart q p hq hp heq
      have hq_end := hfree'.layout.extent_end
      have hp_end : (heap.pools p).extent.1 + (heap.pools p).extent.2 = _ :=
        hrepresents.layout.extent_end
      have hle := hfree'.layout.bitmap_le
      -- the other pool lies on one side of this one
      have hsame : ∀ x, (heap.pools q).allocBitmap ≤ x →
          x < (heap.pools q).storage + (heap.pools q).capacity * (heap.pools q).blockSize →
          heap.mem x = mem x := by
        intro x hlow hhigh
        refine (houtside x ?_).symm
        rcases hapart with hapart | hapart
        · left
          change _ ≤ (heap.pools p).allocBitmap at hapart
          omega
        · right
          change _ ≤ (heap.pools q).allocBitmap at hapart
          exact Nat.le_trans (Nat.le_of_eq hp_end.symm) (Nat.le_trans hapart hlow)
      refine ⟨free', hfree'.congr ?_ ?_⟩
      · intro x hlow hhigh
        exact hsame x hlow (Nat.lt_of_lt_of_le hhigh (Nat.le_add_right _ _))
      · intro i hi x hlow hhigh
        have hend := FwPool.addr_end (hfree'.lt i hi)
        have hstart : (heap.pools q).storage ≤ (heap.pools q).addr i := Nat.le_add_right _ _
        exact hsame x (by omega) (by omega)
  capacity_pos q hq := by
    dsimp only
    by_cases heq : q = p
    · subst heq
      rw [Function.update_self]
      exact h.capacity_pos q hq
    · rw [Function.update_of_ne heq]
      exact h.capacity_pos q hq
  arena := h.arena
  apart q r hq hr hne := by
    have hextent : ∀ u, (Function.update heap.pools p
        { heap.pools p with freeList := list, freeCount := count } u).extent =
          (heap.pools u).extent := by
      intro u
      by_cases heq : u = p
      · subst heq
        rw [Function.update_self]
        rfl
      · rw [Function.update_of_ne heq]
    dsimp only
    rw [hextent, hextent]
    exact h.apart q r hq hr hne

/-- The free bytes of a pool do not wrap around. -/
theorem freeBytes_size (h : heap.Valid T handles) (hp : .pool p ∈ handles) :
    T.size ((heap.pools p).freeCount * (heap.pools p).blockSize) = heap.freeBytes (.pool p) ∧
      heap.freeBytes (.pool p) < T.sizeMod := by
  obtain ⟨free, hfree⟩ := h.pool p hp
  have hle : (heap.pools p).freeCount * (heap.pools p).blockSize ≤
      (heap.pools p).capacity * (heap.pools p).blockSize := by
    apply Nat.mul_le_mul_right
    rw [hfree.count]
    exact hfree.length_le
  have hend := hfree.layout.storage_end
  have hlt : (heap.pools p).freeCount * (heap.pools p).blockSize < T.sizeMod := by omega
  exact ⟨Nat.mod_eq_of_lt hlt, hlt⟩

/-- A pool with free bytes hands out a block. -/
theorem serve_pool (h : heap.Valid T handles) (hp : .pool p ∈ handles)
    (hpos : 0 < heap.freeBytes (.pool p)) (size : Nat) :
    ∃ i < (heap.pools p).capacity, ∃ next count,
      heap.mem.bitAt (heap.pools p).allocBitmap i = false ∧
      (heap.pools p).freeCount = count + 1 ∧
      fwPoolAlloc T heap.mem (heap.pools p) = ((heap.pools p).addr i,
        { heap.pools p with freeList := next, freeCount := count },
        heap.mem.setBit (heap.pools p).allocBitmap i) ∧
      Valid T (serve T heap size (.pool p)).2 handles := by
  obtain ⟨free, hfree⟩ := h.pool p hp
  cases free with
  | nil =>
      have hcount := hfree.count
      rw [freeBytes, hcount, List.length_nil, Nat.zero_mul] at hpos
      exact absurd hpos (Nat.lt_irrefl 0)
  | cons i rest =>
      have hi := hfree.lt i List.mem_cons_self
      obtain ⟨next, halloc, hrepresents⟩ := hfree.alloc_cons
      refine ⟨i, hi, next, rest.length, ?_, hfree.count, halloc, ?_⟩
      · apply eq_false_of_ne_true
        intro hbit
        exact (hfree.bits i hi).mp hbit List.mem_cons_self
      · rw [serve, halloc]
        exact h.replace hp hrepresents fun x hx => hfree.layout.setBit_outside hi hx

/-- A backend serves a request it accepts and leaves everything alone otherwise. -/
theorem tryAllocFromBackend_eq (h : heap.Valid T handles) (hb : b.handle ∈ handles)
    (hsize : size ≠ 0) :
    tryAllocFromBackend T heap b size =
      if heap.accepts T size b then ((heap.serve T size b.handle).1,
        (heap.serve T size b.handle).2, b.grant T (heap.counted size b.handle))
      else (fwNull, heap, b) := by
  rw [tryAllocFromBackend, accepts]
  cases hhandle : b.handle with
  | pool p =>
      rw [hhandle] at hb
      obtain ⟨hbytes, hlt⟩ := h.freeBytes_size hb
      obtain ⟨free, hfree⟩ := h.pool p hb
      have hblock := hfree.layout.blockSize_pos
      dsimp only
      rw [hbytes]
      by_cases hpos : 0 < heap.freeBytes (.pool p)
      · -- at least one block is free
        obtain ⟨i, hi, next, count, -, hcount, halloc, -⟩ := h.serve_pool hb hpos size
        have hle : (heap.pools p).blockSize ≤ heap.freeBytes (.pool p) := by
          rw [freeBytes, hcount, Nat.succ_mul]
          exact Nat.le_add_left _ _
        rw [T.sizeSub_of_le hle hlt, halloc, serve, halloc]
        have hnull := hfree.layout.addr_ne_null i
        by_cases hfits : size ≤ (heap.pools p).blockSize
        · rw [if_neg (Nat.not_lt.mpr hfits)]
          by_cases hmargin :
              b.reserveBytes + (heap.pools p).blockSize ≤ heap.freeBytes (.pool p)
          · rw [if_neg (by omega), if_pos hnull, if_pos (by simp [hfits, hmargin])]
            rfl
          · rw [if_pos (by omega), if_neg (by simp [hmargin])]
        · rw [if_pos (Nat.lt_of_not_le hfits), if_neg (by simp [hfits])]
      · have hno : ¬ (size ≤ (heap.pools p).blockSize ∧
            b.reserveBytes + (heap.pools p).blockSize ≤ heap.freeBytes (.pool p)) := by omega
        rw [if_pos (by omega : heap.freeBytes (.pool p) ≤ b.reserveBytes ∨ _), ite_self,
          if_neg (by simpa using hno)]
  | arena a =>
      rw [hhandle] at hb
      have harena := h.arena a hb
      have hle := harena.offset_le
      have hbytes : (if (heap.arenas a).capacity > (heap.arenas a).offset then
          (heap.arenas a).capacity - (heap.arenas a).offset else 0) =
            heap.freeBytes (.arena a) := by
        rw [freeBytes]
        split <;> omega
      dsimp only
      rw [hbytes, harena.alloc_word hsize]
      have hnull : ((heap.arenas a).bumped T size 4).1 ≠ fwNull := by
        have hpos := harena.buffer_pos
        rw [FwArena.bumped, fwNull]
        omega
      by_cases hmargin : b.reserveBytes + size ≤ heap.freeBytes (.arena a)
      · rw [if_neg (by omega)]
        by_cases hroom : heap.taken T size (.arena a) ≤ heap.freeBytes (.arena a)
        · have hfits : (heap.arenas a).padding T 4 + size ≤
              (heap.arenas a).capacity - (heap.arenas a).offset := hroom
          rw [if_pos hfits, if_pos hnull, if_pos (by simp [hmargin, hroom])]
          rfl
        · have hfits : ¬ (heap.arenas a).padding T 4 + size ≤
              (heap.arenas a).capacity - (heap.arenas a).offset := hroom
          rw [if_neg hfits, if_neg (by simp), if_neg (by simp [hroom]), Function.update_eq_self]
      · rw [if_pos (by omega), if_neg (by simp [hmargin])]

theorem freeBytes_pos (h : heap.Valid T handles) (hp : .pool p ∈ handles)
    (hhandle : b.handle = .pool p) (haccepts : heap.accepts T size b = true) :
    0 < heap.freeBytes (.pool p) := by
  obtain ⟨free, hfree⟩ := h.pool p hp
  have hblock := hfree.layout.blockSize_pos
  rw [accepts, hhandle] at haccepts
  have hmargin := (of_decide_eq_true haccepts).2
  omega

/-- A backend that accepts a request gives an address and stays in order. -/
theorem serve_accepted (h : heap.Valid T handles) (hb : b.handle ∈ handles)
    (haccepts : heap.accepts T size b = true) :
    (heap.serve T size b.handle).1 ≠ fwNull ∧ Valid T (heap.serve T size b.handle).2 handles := by
  cases hhandle : b.handle with
  | pool p =>
      rw [hhandle] at hb
      obtain ⟨i, -, next, count, -, -, halloc, hvalid⟩ :=
        h.serve_pool hb (h.freeBytes_pos hb hhandle haccepts) size
      obtain ⟨free, hfree⟩ := h.pool p hb
      refine ⟨?_, hvalid⟩
      rw [serve, halloc]
      exact hfree.layout.addr_ne_null i
  | arena a =>
      rw [hhandle] at hb
      have harena := h.arena a hb
      have hroom : (heap.arenas a).padding T 4 + size ≤
          (heap.arenas a).capacity - (heap.arenas a).offset := by
        rw [accepts, hhandle] at haccepts
        exact (of_decide_eq_true haccepts).2
      constructor
      · have hpos := harena.buffer_pos
        rw [serve, FwArena.bumped, fwNull]
        dsimp only
        omega
      · refine ⟨h.pool, h.capacity_pos, ?_, h.apart⟩
        intro c hc
        rw [serve]
        dsimp only
        by_cases heq : c = a
        · subst heq
          rw [Function.update_self]
          exact harena.bumped_valid hroom
        · rw [Function.update_of_ne heq]
          exact h.arena c hc

/-- The inner loop serves the request by the first backend of its tier that accepts it. -/
theorem tryTier_eq (h : heap.Valid T handles) {bs : List FwMemBackend}
    (hbs : ∀ b ∈ bs, b.handle ∈ handles) (hsize : size ≠ 0) (tier : Nat) :
    tryTier T size tier bs heap =
      match firstFit (fun b => b.tier = tier && heap.accepts T size b) bs with
      | none => (fwNull, heap, bs)
      | some (before, b, after) => ((heap.serve T size b.handle).1,
          (heap.serve T size b.handle).2,
          before ++ b.grant T (heap.counted size b.handle) :: after) := by
  induction bs with
  | nil => rfl
  | cons b bs ih =>
      have hb : b.handle ∈ handles := hbs b List.mem_cons_self
      have hrest := ih fun c hc => hbs c (List.mem_cons_of_mem b hc)
      rw [tryTier, firstFit, h.tryAllocFromBackend_eq hb hsize]
      by_cases htier : b.tier = tier
      · rw [if_pos htier]
        by_cases haccepts : heap.accepts T size b = true
        · have hnull := (h.serve_accepted hb haccepts).1
          rw [if_pos haccepts]
          dsimp only
          rw [if_pos hnull, if_pos (by simp [htier, haccepts])]
          rfl
        · rw [if_neg haccepts]
          dsimp only
          rw [if_neg (not_not.mpr rfl), if_neg (by simp [haccepts]), hrest]
          cases firstFit (fun b => b.tier = tier && heap.accepts T size b) bs with
          | none => rfl
          | some r => rfl
      · rw [if_neg htier]
        dsimp only
        rw [if_neg (by simp [htier]), hrest]
        cases firstFit (fun b => b.tier = tier && heap.accepts T size b) bs with
        | none => rfl
        | some r => rfl

/-- The outer loop tries the tiers in their order. -/
theorem tryTiers_eq (h : heap.Valid T handles) {bs : List FwMemBackend}
    (hbs : ∀ b ∈ bs, b.handle ∈ handles) (hsize : size ≠ 0) (order : List Nat) :
    tryTiers T size order bs heap =
      match firstFitOf (fun tier b => b.tier = tier && heap.accepts T size b) order bs with
      | none => (fwNull, heap, bs)
      | some (before, b, after) => ((heap.serve T size b.handle).1,
          (heap.serve T size b.handle).2,
          before ++ b.grant T (heap.counted size b.handle) :: after) := by
  induction order with
  | nil => rfl
  | cons tier order ih =>
      rw [tryTiers, h.tryTier_eq hbs hsize tier, firstFitOf, List.findSome?_cons]
      cases hfit : firstFit (fun b => b.tier = tier && heap.accepts T size b) bs with
      | none =>
          dsimp only
          rw [if_neg (by simp), ih, firstFitOf]
      | some r =>
          obtain ⟨before, b, after⟩ := r
          obtain ⟨rfl, haccepts, -⟩ := firstFit_some hfit
          have hb := hbs b (by simp)
          rw [Bool.and_eq_true] at haccepts
          dsimp only
          rw [if_pos (h.serve_accepted hb haccepts.2).1]

/-- The ranges of two pools do not overlap. -/
theorem range_unique {q ptr : Nat} (h : heap.Valid T handles) (hp : .pool p ∈ handles)
    (hq : .pool q ∈ handles)
    (hptr : ptr ≥ (heap.pools p).storage ∧
      ptr < T.size ((heap.pools p).storage + (heap.pools p).storageSize))
    (hptr' : ptr ≥ (heap.pools q).storage ∧
      ptr < T.size ((heap.pools q).storage + (heap.pools q).storageSize)) : p = q := by
  by_contra hne
  obtain ⟨free, hfree⟩ := h.pool p hp
  obtain ⟨free', hfree'⟩ := h.pool q hq
  have hend := hfree.layout.extent_end
  have hend' := hfree'.layout.extent_end
  have hle := hfree.layout.bitmap_le
  have hle' := hfree'.layout.bitmap_le
  rw [hfree.end_eq] at hptr
  rw [hfree'.end_eq] at hptr'
  rcases h.apart p q hp hq hne with hapart | hapart
  · rw [hend] at hapart
    change _ ≤ (heap.pools q).allocBitmap at hapart
    omega
  · rw [hend'] at hapart
    change _ ≤ (heap.pools p).allocBitmap at hapart
    omega

end Valid

/-- The heap after block `i` of a pool has been freed. -/
def release (T : Target) (assert : Bool) (heap : Heap) (p i : Nat) : Heap :=
  { heap with
    mem := (heap.pools p).freed T assert heap.mem i
    pools := Function.update heap.pools p
      { heap.pools p with
        freeList := (heap.pools p).addr i
        freeCount := (heap.pools p).freeCount + 1 } }

/-- Uncount a freed block. -/
def unrecorded (heap : Heap) (b : FwMemBackend) (p : Nat) : FwMemBackend :=
  if b.allocatedBytes ≥ (heap.pools p).blockSize then
    { b with allocatedBytes := b.allocatedBytes - (heap.pools p).blockSize } else b

namespace Valid

/-- The loop of `fw_mem_hub_free` changes nothing, or it gives a block that is not free back to its
pool. -/
theorem freeInPools_cases (assert : Bool) {ptr : Nat} (h : heap.Valid T handles)
    {bs : List FwMemBackend} (hbs : ∀ b ∈ bs, b.handle ∈ handles) :
    ((∀ b ∈ bs, ∀ p, b.handle = .pool p → ∀ i < (heap.pools p).capacity,
        ptr = (heap.pools p).addr i →
          heap.mem.bitAt (heap.pools p).allocBitmap i = false) ∧
      ∃ status, status ≠ .ok ∧ freeInPools T assert heap ptr bs = (status, heap, bs)) ∨
    ∃ before b after p i, bs = before ++ b :: after ∧ b.handle = .pool p ∧
      i < (heap.pools p).capacity ∧ ptr = (heap.pools p).addr i ∧
      heap.mem.bitAt (heap.pools p).allocBitmap i = true ∧
      freeInPools T assert heap ptr bs = (.ok, heap.release T assert p i,
        before ++ heap.unrecorded b p :: after) ∧
      Valid T (heap.release T assert p i) handles := by
  induction bs with
  | nil =>
      exact Or.inl ⟨fun b hb => absurd hb List.not_mem_nil, .errNotFound, FwStatus.noConfusion, rfl⟩
  | cons b bs ih =>
      have hb : b.handle ∈ handles := hbs b List.mem_cons_self
      have hrest := ih fun c hc => hbs c (List.mem_cons_of_mem b hc)
      -- the loop goes on behind a backend without the address
      have hskip (hno : ∀ p, b.handle = .pool p → ¬ (ptr ≥ (heap.pools p).storage ∧
          ptr < T.size ((heap.pools p).storage + (heap.pools p).storageSize))) :
          freeInPools T assert heap ptr (b :: bs) =
            ((freeInPools T assert heap ptr bs).1, (freeInPools T assert heap ptr bs).2.1,
              b :: (freeInPools T assert heap ptr bs).2.2) := by
        rw [freeInPools]
        cases hhandle : b.handle with
        | pool p =>
            dsimp only
            rw [if_neg (hno p hhandle)]
        | arena a => rfl
      by_cases hrange : ∃ p, b.handle = .pool p ∧ ptr ≥ (heap.pools p).storage ∧
          ptr < T.size ((heap.pools p).storage + (heap.pools p).storageSize)
      · obtain ⟨p, hhandle, hrange⟩ := hrange
        rw [hhandle] at hb
        obtain ⟨free, hfree⟩ := h.pool p hb
        rw [freeInPools, hhandle]
        dsimp only
        rw [if_pos hrange]
        rcases hfree.free_cases assert (h.capacity_pos p hb) ptr with
          ⟨hin, heq⟩ | ⟨i, hi, rfl, hnotin, heq, hrepresents⟩
        · refine Or.inl ⟨?_, .errInvalidArg, FwStatus.noConfusion, ?_⟩
          · intro c hc q hq i hi hptr
            have hcq := hbs c hc
            rw [hq] at hcq
            obtain ⟨free', hfree'⟩ := h.pool q hcq
            have hrange' := hfree'.addr_range hi
            rw [← hptr] at hrange'
            obtain rfl := h.range_unique hb hcq hrange hrange'
            apply eq_false_of_ne_true
            intro hbit
            exact (hfree.bits i hi).mp hbit (hin i hi hptr)
          · rw [heq, Function.update_eq_self]
            dsimp only
            rw [if_neg (fun hok => FwStatus.noConfusion hok.1)]
        · refine Or.inr ⟨[], b, bs, p, i, rfl, hhandle, hi, rfl, (hfree.bits i hi).mpr hnotin,
            ?_, ?_⟩
          · rw [heq, release, unrecorded, hfree.count]
            dsimp only
            simp only [true_and, hhandle, List.nil_append]
          · rw [release, hfree.count]
            exact h.replace hb hrepresents fun x hx => hfree.freed_same hi hx
      · rw [hskip fun p hhandle hptr => hrange ⟨p, hhandle, hptr⟩]
        rcases hrest with ⟨hno, status, hstatus, heq⟩ |
          ⟨before, c, after, p, i, rfl, hhandle, hi, hptr, hbit, heq, hvalid⟩
        · refine Or.inl ⟨?_, status, hstatus, by rw [heq]⟩
          intro c hc q hq i hi hptr
          rcases List.mem_cons.mp hc with rfl | hc
          · rw [hq] at hb
            obtain ⟨free, hfree⟩ := h.pool q hb
            have hptr' := hfree.addr_range hi
            rw [← hptr] at hptr'
            exact absurd ⟨q, hq, hptr'⟩ hrange
          · exact hno c hc q hq i hi hptr
        · exact Or.inr ⟨b :: before, c, after, p, i, rfl, hhandle, hi, hptr, hbit,
            by rw [heq]; rfl, hvalid⟩

/-- Writes into blocks that are not free leave the pools in order. -/
theorem write (h : heap.Valid T handles) {mem : ByteMemory}
    (hbitmap : ∀ p, .pool p ∈ handles →
      ByteMemory.AgreeOn heap.mem mem (heap.pools p).allocBitmap (heap.pools p).storage)
    (hfree : ∀ p, .pool p ∈ handles → ∀ i < (heap.pools p).capacity,
      heap.mem.bitAt (heap.pools p).allocBitmap i = false →
        ByteMemory.AgreeOn heap.mem mem ((heap.pools p).addr i)
          ((heap.pools p).addr i + (heap.pools p).blockSize)) :
    Valid T { heap with mem := mem } handles where
  pool p hp := by
    obtain ⟨free, hrepresents⟩ := h.pool p hp
    refine ⟨free, hrepresents.congr (hbitmap p hp) ?_⟩
    intro i hi
    have hlt := hrepresents.lt i hi
    apply hfree p hp i hlt
    apply eq_false_of_ne_true
    intro hbit
    exact (hrepresents.bits i hlt).mp hbit hi
  capacity_pos := h.capacity_pos
  arena := h.arena
  apart := h.apart

end Valid

end Heap

/-- The handles of the registered backends. -/
def FwMemHub.handles (hub : FwMemHub) : List FwMemHandle := hub.backends.map (·.handle)

/-- The backend that serves a request, with the backends registered before and behind it. -/
def FwMemHub.server (T : Target) (heap : Heap) (hub : FwMemHub) (size : Nat) (hints : UInt32) :
    Option (List FwMemBackend × FwMemBackend × List FwMemBackend) :=
  if size = 0 then none
  else firstFitOf (fun tier b => b.tier = tier && heap.accepts T size b) (searchOrder hints)
    hub.backends

section Calls

variable {T : Target} {heap : Heap} {hub : FwMemHub} {size : Nat} {hints : UInt32}
  {before after : List FwMemBackend} {b : FwMemBackend}

theorem FwMemHub.server_some (h : hub.server T heap size hints = some (before, b, after)) :
    size ≠ 0 ∧ hub.backends = before ++ b :: after ∧ b.handle ∈ hub.handles ∧
      heap.accepts T size b = true := by
  rw [server] at h
  split at h
  · cases h
  next hsize =>
  obtain ⟨hbackends, tier, -, haccepts⟩ := firstFitOf_some h
  rw [Bool.and_eq_true] at haccepts
  refine ⟨hsize, hbackends, ?_, haccepts.2⟩
  apply List.mem_map_of_mem
  rw [hbackends]
  exact List.mem_append_right _ List.mem_cons_self

/-- A request without a server is rejected. -/
theorem fwMemHubAlloc_none (h : heap.Valid T hub.handles)
    (hserver : hub.server T heap size hints = none) :
    (fwMemHubAlloc T heap hub size hints).1 = fwNull ∧
      (fwMemHubAlloc T heap hub size hints).2.1 = heap ∧
      (fwMemHubAlloc T heap hub size hints).2.2.backends = hub.backends := by
  rw [fwMemHubAlloc]
  rw [FwMemHub.server] at hserver
  split
  · exact ⟨rfl, rfl, rfl⟩
  · next hsize =>
      rw [if_neg hsize] at hserver
      rw [h.tryTiers_eq (fun b hb => List.mem_map_of_mem hb) hsize, hserver]
      dsimp only
      rw [if_neg (not_not.mpr rfl)]
      exact ⟨rfl, rfl, rfl⟩

/-- Any other request is granted by its server. -/
theorem fwMemHubAlloc_some (h : heap.Valid T hub.handles)
    (hserver : hub.server T heap size hints = some (before, b, after)) :
    (fwMemHubAlloc T heap hub size hints).1 = (heap.serve T size b.handle).1 ∧
      (fwMemHubAlloc T heap hub size hints).2.1 = (heap.serve T size b.handle).2 ∧
      (fwMemHubAlloc T heap hub size hints).2.2.backends =
        before ++ b.grant T (heap.counted size b.handle) :: after := by
  obtain ⟨hsize, -, hb, haccepts⟩ := FwMemHub.server_some hserver
  have hnull := (h.serve_accepted hb haccepts).1
  rw [FwMemHub.server, if_neg hsize] at hserver
  rw [fwMemHubAlloc, if_neg hsize, h.tryTiers_eq (fun b hb => List.mem_map_of_mem hb) hsize,
    hserver]
  dsimp only
  rw [if_pos hnull]
  exact ⟨rfl, rfl, rfl⟩

/-- `fw_mem_hub_free` changes nothing, or it gives a block that is not free back to its pool. -/
theorem fwMemHubFree_cases (assert : Bool) (h : heap.Valid T hub.handles) (ptr : Nat) :
    ((∀ p, .pool p ∈ hub.handles → ∀ i < (heap.pools p).capacity,
        ptr = (heap.pools p).addr i →
          heap.mem.bitAt (heap.pools p).allocBitmap i = false) ∧
      ∃ status, status ≠ .ok ∧ fwMemHubFree T assert heap hub ptr = (status, heap, hub)) ∨
    ∃ before b after p i, hub.backends = before ++ b :: after ∧ b.handle = .pool p ∧
      i < (heap.pools p).capacity ∧ ptr = (heap.pools p).addr i ∧
      heap.mem.bitAt (heap.pools p).allocBitmap i = true ∧
      fwMemHubFree T assert heap hub ptr = (.ok, heap.release T assert p i,
        { hub with backends := before ++ heap.unrecorded b p :: after }) ∧
      (heap.release T assert p i).Valid T hub.handles := by
  rw [fwMemHubFree]
  by_cases hnull : ptr = fwNull
  · rw [if_pos hnull]
    refine Or.inl ⟨?_, .errInvalidArg, FwStatus.noConfusion, rfl⟩
    intro p hp i _ hptr
    obtain ⟨free, hfree⟩ := h.pool p hp
    rw [hnull] at hptr
    exact absurd hptr.symm (hfree.layout.addr_ne_null i)
  · rw [if_neg hnull]
    rcases h.freeInPools_cases assert fun b hb => List.mem_map_of_mem hb with
      ⟨hno, status, hstatus, heq⟩ |
      ⟨before, b, after, p, i, hbackends, hhandle, hi, hptr, hbit, heq, hvalid⟩
    · refine Or.inl ⟨?_, status, hstatus, by rw [heq]⟩
      intro p hp i hi hptr
      obtain ⟨b, hb, hhandle⟩ := List.mem_map.mp hp
      exact hno b hb p hhandle i hi hptr
    · exact Or.inr ⟨before, b, after, p, i, hbackends, hhandle, hi, hptr, hbit, by rw [heq], hvalid⟩

end Calls

/-- The heap, the hub, and the addresses that were handed out and not given back. -/
structure HubState where
  heap : Heap
  hub : FwMemHub
  held : List Nat

/-- A call with its result. -/
inductive HubCall
  | alloc (size : Nat) (hints : UInt32) (ptr : Nat)
  | free (ptr : Nat) (status : FwStatus)
  | write

/-- A call and the hub behind it. -/
structure HubEvent where
  call : HubCall
  hub : FwMemHub

/-- Clients write neither into bitmaps nor into free blocks. -/
def Heap.ClientWrites (heap : Heap) (handles : List FwMemHandle) (mem : ByteMemory) : Prop :=
  ∀ p, .pool p ∈ handles →
    ByteMemory.AgreeOn heap.mem mem (heap.pools p).allocBitmap (heap.pools p).storage ∧
    ∀ i < (heap.pools p).capacity, heap.mem.bitAt (heap.pools p).allocBitmap i = false →
      ByteMemory.AgreeOn heap.mem mem ((heap.pools p).addr i)
        ((heap.pools p).addr i + (heap.pools p).blockSize)

/-- The calls of the clients and their writes. -/
inductive HubStep (T : Target) (assert : Bool) : HubState → HubEvent → HubState → Prop
  | alloc (s : HubState) (size : Nat) (hints : UInt32) :
      HubStep T assert s
        { call := .alloc size hints (fwMemHubAlloc T s.heap s.hub size hints).1
          hub := (fwMemHubAlloc T s.heap s.hub size hints).2.2 }
        { heap := (fwMemHubAlloc T s.heap s.hub size hints).2.1
          hub := (fwMemHubAlloc T s.heap s.hub size hints).2.2
          held := if (fwMemHubAlloc T s.heap s.hub size hints).1 = fwNull then s.held
            else (fwMemHubAlloc T s.heap s.hub size hints).1 :: s.held }
  | free (s : HubState) (ptr : Nat) :
      HubStep T assert s
        { call := .free ptr (fwMemHubFree T assert s.heap s.hub ptr).1
          hub := (fwMemHubFree T assert s.heap s.hub ptr).2.2 }
        { heap := (fwMemHubFree T assert s.heap s.hub ptr).2.1
          hub := (fwMemHubFree T assert s.heap s.hub ptr).2.2
          held := if (fwMemHubFree T assert s.heap s.hub ptr).1 = .ok then s.held.filter (· ≠ ptr)
            else s.held }
  | write (s : HubState) (mem : ByteMemory) (writes : s.heap.ClientWrites s.hub.handles mem) :
      HubStep T assert s { call := .write, hub := s.hub }
        { s with heap := { s.heap with mem := mem } }

/-- Registered pools and arenas stay in order, and so do the registrations. -/
theorem HubStep.valid {T : Target} {assert : Bool} {s s' : HubState} {e : HubEvent}
    (hstep : HubStep T assert s e s') (h : s.heap.Valid T s.hub.handles) :
    s'.heap.Valid T s'.hub.handles ∧ s'.hub.handles = s.hub.handles := by
  cases hstep with
  | alloc size hints =>
      cases hserver : s.hub.server T s.heap size hints with
      | none =>
          obtain ⟨-, hheap, hbackends⟩ := fwMemHubAlloc_none h hserver
          rw [FwMemHub.handles, hheap, hbackends]
          exact ⟨h, rfl⟩
      | some r =>
          obtain ⟨before, b, after⟩ := r
          obtain ⟨-, hheap, hbackends⟩ := fwMemHubAlloc_some h hserver
          obtain ⟨-, hs, hb, haccepts⟩ := FwMemHub.server_some hserver
          have hhandles : (before ++ b.grant T (s.heap.counted size b.handle) :: after).map
              (·.handle) = s.hub.handles := by
            rw [FwMemHub.handles, hs, List.map_append, List.map_append]
            rfl
          rw [FwMemHub.handles, hheap, hbackends, hhandles]
          exact ⟨(h.serve_accepted hb haccepts).2, rfl⟩
  | free ptr =>
      rcases fwMemHubFree_cases assert h ptr with
        ⟨-, status, -, heq⟩ | ⟨before, b, after, p, i, hs, -, -, -, -, heq, hvalid⟩
      · rw [heq]
        exact ⟨h, rfl⟩
      · have hhandles : (before ++ s.heap.unrecorded b p :: after).map (·.handle) =
            s.hub.handles := by
          have hsame : (s.heap.unrecorded b p).handle = b.handle := by
            rw [Heap.unrecorded]
            split <;> rfl
          rw [FwMemHub.handles, hs, List.map_append, List.map_append, List.map_cons, List.map_cons,
            hsame]
        rw [heq, FwMemHub.handles]
        dsimp only
        rw [hhandles]
        exact ⟨hvalid, rfl⟩
  | write mem hwrites =>
      exact ⟨h.write (fun p hp => (hwrites p hp).1) fun p hp => (hwrites p hp).2, rfl⟩

end ZeroEmbedded.Memory
