import ZeroEmbedded.Foundation.FirstFit
import ZeroEmbedded.Memory.Arena

/-!
# The memory hub

`hub.c` routes requests to registered pools and arenas.

## Implementation notes

A handle is the address of a control structure, and a `Heap` maps such
addresses to the structures, since a hub stores pointers. Only registered
backends are stored, so there is no backend of type `FW_BACKEND_NONE`.
-/

namespace ZeroEmbedded.Memory

open Foundation

/-- `FW_MEM_TIER_FAST`. -/
def fwMemTierFast : Nat := 0

/-- `FW_MEM_TIER_DMA`. -/
def fwMemTierDma : Nat := 1

/-- `FW_MEM_TIER_BULK`. -/
def fwMemTierBulk : Nat := 2

/-- `FW_MEM_TIER_COUNT`. -/
def fwMemTierCount : Nat := 3

/-- `FW_MEM_HINT_FAST`. -/
def fwMemHintFast : UInt32 := 1

/-- `FW_MEM_HINT_DMA`. -/
def fwMemHintDma : UInt32 := 2

/-- `FW_MEM_HUB_MAX_BACKENDS`. -/
def fwMemHubMaxBackends : Nat := 8

/-- `type` and `handle` of a backend. -/
inductive FwMemHandle
  | pool (pool : Nat)
  | arena (arena : Nat)
  deriving DecidableEq, Repr

/-- `fw_mem_backend_t`. -/
structure FwMemBackend where
  name : String
  tier : Nat
  handle : FwMemHandle
  reserveBytes : Nat
  allocatedBytes : Nat
  peakUsedBytes : Nat
  deriving DecidableEq, Repr

/-- `fw_mem_hub_t`. -/
structure FwMemHub where
  backends : List FwMemBackend
  totalAllocOps : Nat
  totalRejectedOps : Nat
  deriving DecidableEq, Repr

/-- The memory of the pools and all control structures. -/
structure Heap where
  mem : ByteMemory
  pools : Nat → FwPool
  arenas : Nat → FwArena

/-- `fw_mem_hub_init`. -/
def fwMemHubInit : FwMemHub := { backends := [], totalAllocOps := 0, totalRejectedOps := 0 }

/-- Append a backend for a control structure at the address `object`. -/
def FwMemHub.register (hub : FwMemHub) (tier object : Nat) (handle : FwMemHandle) (name : String)
    (reserveBytes : Nat) : FwStatus × FwMemHub :=
  if object = fwNull ∨ tier ≥ fwMemTierCount then (.errInvalidArg, hub)
  else if hub.backends.length ≥ fwMemHubMaxBackends then (.errBufferOverflow, hub)
  else
    (.ok, { hub with
      backends := hub.backends ++
        [{ name := name, tier := tier, handle := handle, reserveBytes := reserveBytes
           allocatedBytes := 0, peakUsedBytes := 0 }] })

/-- `fw_mem_hub_register_pool`. -/
def fwMemHubRegisterPool (hub : FwMemHub) (tier pool : Nat) (name : Option String)
    (reserveBytes : Nat) : FwStatus × FwMemHub :=
  hub.register tier pool (.pool pool) (name.getD "unnamed_pool") reserveBytes

/-- `fw_mem_hub_register_arena`. -/
def fwMemHubRegisterArena (hub : FwMemHub) (tier arena : Nat) (name : Option String)
    (reserveBytes : Nat) : FwStatus × FwMemHub :=
  hub.register tier arena (.arena arena) (name.getD "unnamed_arena") reserveBytes

/-- Count granted bytes. -/
def FwMemBackend.grant (T : Target) (b : FwMemBackend) (bytes : Nat) : FwMemBackend :=
  let allocated := T.size (b.allocatedBytes + bytes)
  { b with
    allocatedBytes := allocated
    peakUsedBytes := if allocated > b.peakUsedBytes then allocated else b.peakUsedBytes }

/-- `try_alloc_from_backend`. -/
def tryAllocFromBackend (T : Target) (heap : Heap) (b : FwMemBackend) (size : Nat) :
    Nat × Heap × FwMemBackend :=
  match b.handle with
  | .pool p =>
      let pool := heap.pools p
      if size > pool.blockSize then (fwNull, heap, b)
      else
        let freeBytes := T.size (pool.freeCount * pool.blockSize)
        if freeBytes ≤ b.reserveBytes ∨
            T.sizeSub freeBytes pool.blockSize < b.reserveBytes then (fwNull, heap, b)
        else
          let r := fwPoolAlloc T heap.mem pool
          let heap := { heap with mem := r.2.2, pools := Function.update heap.pools p r.2.1 }
          if r.1 ≠ fwNull then (r.1, heap, b.grant T pool.blockSize) else (fwNull, heap, b)
  | .arena a =>
      let arena := heap.arenas a
      let freeBytes := if arena.capacity > arena.offset then arena.capacity - arena.offset else 0
      if freeBytes ≤ b.reserveBytes ∨ size > freeBytes ∨ freeBytes - size < b.reserveBytes then
        (fwNull, heap, b)
      else
        let r := fwArenaAlloc T arena size 4
        let heap := { heap with arenas := Function.update heap.arenas a r.2 }
        if r.1 ≠ fwNull then (r.1, heap, b.grant T size) else (fwNull, heap, b)

/-- The inner loop of `fw_mem_hub_alloc`, over the backends of one tier. -/
def tryTier (T : Target) (size tier : Nat) :
    List FwMemBackend → Heap → Nat × Heap × List FwMemBackend
  | [], heap => (fwNull, heap, [])
  | b :: bs, heap =>
      if b.tier = tier then
        let r := tryAllocFromBackend T heap b size
        if r.1 ≠ fwNull then (r.1, r.2.1, r.2.2 :: bs)
        else
          let rest := tryTier T size tier bs r.2.1
          (rest.1, rest.2.1, r.2.2 :: rest.2.2)
      else
        let rest := tryTier T size tier bs heap
        (rest.1, rest.2.1, b :: rest.2.2)

/-- The outer loop of `fw_mem_hub_alloc`, over the tiers of the search order. -/
def tryTiers (T : Target) (size : Nat) :
    List Nat → List FwMemBackend → Heap → Nat × Heap × List FwMemBackend
  | [], bs, heap => (fwNull, heap, bs)
  | tier :: order, bs, heap =>
      let r := tryTier T size tier bs heap
      if r.1 ≠ fwNull then r else tryTiers T size order r.2.2 r.2.1

/-- `search_order`. -/
def searchOrder (hints : UInt32) : List Nat :=
  if hints &&& fwMemHintDma ≠ 0 then [fwMemTierDma]
  else if hints &&& fwMemHintFast ≠ 0 then [fwMemTierFast, fwMemTierBulk, fwMemTierDma]
  else [fwMemTierBulk, fwMemTierFast, fwMemTierDma]

/-- `fw_mem_hub_alloc`. -/
def fwMemHubAlloc (T : Target) (heap : Heap) (hub : FwMemHub) (size : Nat) (hints : UInt32) :
    Nat × Heap × FwMemHub :=
  if size = 0 then (fwNull, heap, hub)
  else
    let ops := T.size (hub.totalAllocOps + 1)
    let r := tryTiers T size (searchOrder hints) hub.backends heap
    if r.1 ≠ fwNull then (r.1, r.2.1, { hub with backends := r.2.2, totalAllocOps := ops })
    else (fwNull, r.2.1, { backends := r.2.2, totalAllocOps := ops,
                           totalRejectedOps := T.size (hub.totalRejectedOps + 1) })

/-- The loop of `fw_mem_hub_free`, which stops at the pool that contains the address. -/
def freeInPools (T : Target) (assert : Bool) (heap : Heap) (ptr : Nat) :
    List FwMemBackend → FwStatus × Heap × List FwMemBackend
  | [] => (.errNotFound, heap, [])
  | b :: bs =>
      let rest := freeInPools T assert heap ptr bs
      match b.handle with
      | .pool p =>
          let pool := heap.pools p
          if ptr ≥ pool.storage ∧ ptr < T.size (pool.storage + pool.storageSize) then
            let r := fwPoolFree T assert heap.mem pool ptr
            let heap := { heap with mem := r.2.2, pools := Function.update heap.pools p r.2.1 }
            let b := if r.1 = .ok ∧ b.allocatedBytes ≥ pool.blockSize then
              { b with allocatedBytes := b.allocatedBytes - pool.blockSize } else b
            (r.1, heap, b :: bs)
          else (rest.1, rest.2.1, b :: rest.2.2)
      | .arena _ => (rest.1, rest.2.1, b :: rest.2.2)

/-- `fw_mem_hub_free`. -/
def fwMemHubFree (T : Target) (assert : Bool) (heap : Heap) (hub : FwMemHub) (ptr : Nat) :
    FwStatus × Heap × FwMemHub :=
  if ptr = fwNull then (.errInvalidArg, heap, hub)
  else
    let r := freeInPools T assert heap ptr hub.backends
    (r.1, r.2.1, { hub with backends := r.2.2 })

/-- The bytes of a backend above its reserve, as `fw_mem_hub_get_free_space` counts them. -/
def freeSpaceOf (T : Target) (heap : Heap) (b : FwMemBackend) : Nat :=
  let rawFree := match b.handle with
    | .pool p => T.size ((heap.pools p).freeCount * (heap.pools p).blockSize)
    | .arena a =>
        let arena := heap.arenas a
        if arena.capacity > arena.offset then arena.capacity - arena.offset else 0
  if rawFree > b.reserveBytes then rawFree - b.reserveBytes else 0

/-- `fw_mem_hub_get_free_space`. -/
def fwMemHubGetFreeSpace (T : Target) (heap : Heap) (hub : FwMemHub) (tier : Nat) : Nat :=
  if tier ≥ fwMemTierCount then 0
  else hub.backends.foldl
    (fun totalFree b =>
      if b.tier = tier then T.size (totalFree + freeSpaceOf T heap b) else totalFree) 0

/-- `fw_mem_hub_get_total_used`. -/
def fwMemHubGetTotalUsed (T : Target) (hub : FwMemHub) : Nat :=
  hub.backends.foldl (fun used b => T.size (used + b.allocatedBytes)) 0

end ZeroEmbedded.Memory
