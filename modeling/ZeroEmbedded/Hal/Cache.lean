import ZeroEmbedded.Foundation.PowerOfTwo
import ZeroEmbedded.Foundation.WriteBackCache
import ZeroEmbedded.Types

/-!
# Cache maintenance

`cache.c` as it is built for the ARM946E-S, whose cache operations work on one
line by an address in it. The loops run over 32-bit line addresses. A buffer
that is cleaned can be read by a device, and one that is invalidated after a
device has written it can be read by the processor.

## Implementation notes

Barriers and the write buffer do not change what a cache holds. The counters of
the operations are not read by any function.
-/

namespace ZeroEmbedded.Cache

open Foundation

/-- `FW_NULL`. -/
def fwNull : Nat := 0

/-- `FW_CACHE_LINE_SIZE`. -/
def fwCacheLineSize : Nat := 32

/-- The operations of coprocessor 15 that are issued. -/
inductive CacheOp
  | cleanLine (line : Nat)
  | invalidateLine (line : Nat)
  | invalidateAll
  | drainWriteBuffer
  deriving DecidableEq, Repr

/-- `for (line = start; line < end; line += FW_CACHE_LINE_SIZE)`; `none` when the loop goes on
behind the fuel. -/
def lineLoop : Nat → Nat → Nat → Option (List Nat)
  | 0, _, _ => none
  | fuel + 1, line, stop =>
      if line < stop then (lineLoop fuel (u32 (line + fwCacheLineSize)) stop).map (line :: ·)
      else some []

/-- The addresses of the lines that the loops visit. -/
def maintainedLines (fuel addr size : Nat) : Option (List Nat) :=
  lineLoop fuel (addr &&& (2 ^ 32 - 1 - (fwCacheLineSize - 1))) (u32 (addr + size))

/-- `fw_cache_clean`. -/
def fwCacheClean (fuel addr size : Nat) : Option (List CacheOp) :=
  if addr = fwNull ∨ size = 0 then some []
  else (maintainedLines fuel addr size).map fun lines =>
    lines.map .cleanLine ++ [.drainWriteBuffer]

/-- `fw_cache_invalidate`. -/
def fwCacheInvalidate (fuel addr size : Nat) : Option (List CacheOp) :=
  if addr = fwNull ∨ size = 0 then some []
  else (maintainedLines fuel addr size).map fun lines => lines.map .invalidateLine

/-- `fw_cache_flush_all`. -/
def fwCacheFlushAll : List CacheOp := [.invalidateAll, .drainWriteBuffer]

/-- The line of an address. -/
def lineOf (x : Nat) : Nat := x / fwCacheLineSize

/-- The events of a cache of bytes. -/
abbrev CacheEvent := WriteBackCache.Event Nat Nat UInt8

/-- What an operation does to the cache. -/
def CacheOp.events : CacheOp → List CacheEvent
  | cleanLine line => [.clean (lineOf line)]
  | invalidateLine line => [.invalidate (lineOf line)]
  | invalidateAll => [.invalidateAll]
  | drainWriteBuffer => []

section Lines

variable {addr size fuel line stop : Nat}

theorem and_lineMask (haddr : addr < 2 ^ 32) :
    addr &&& (2 ^ 32 - 1 - (fwCacheLineSize - 1)) = 32 * lineOf addr := by
  have hhigh : addr &&& (2 ^ 32 - 1 - (2 ^ 5 - 1)) = addr / 2 ^ 5 * 2 ^ 5 :=
    PowerOfTwo.and_high (by decide) haddr
  rw [Nat.mul_comm]
  exact hhigh

/-- The loop visits the lines up to the end, when it does not pass the top of the memory. -/
theorem lineLoop_eq {n : Nat} (hstop : stop ≤ 2 ^ 32 - 32)
    (hn : stop ≤ 32 * (line + n) ∧ (n = 0 ∨ 32 * (line + n) < stop + 32)) (hfuel : n < fuel) :
    lineLoop fuel (32 * line) stop = some ((List.range' line n).map (32 * ·)) := by
  induction n generalizing line fuel with
  | zero =>
      obtain ⟨fuel, rfl⟩ := Nat.exists_eq_succ_of_ne_zero (Nat.ne_of_gt hfuel)
      rw [lineLoop, if_neg (by omega)]
      rfl
  | succ n ih =>
      obtain ⟨fuel, rfl⟩ := Nat.exists_eq_succ_of_ne_zero (Nat.ne_of_gt (Nat.zero_lt_of_lt hfuel))
      have hnext : u32 (32 * line + fwCacheLineSize) = 32 * (line + 1) :=
        u32_of_lt (by rw [fwCacheLineSize]; omega)
      rw [lineLoop, if_pos (by omega), hnext, ih (by omega) (by omega)]
      rfl

/-- A loop whose end is behind the last line that does not wrap around goes on for ever. -/
theorem lineLoop_diverges (hstop : 2 ^ 32 - 32 < stop) (hline : line < 2 ^ 27) (fuel : Nat) :
    lineLoop fuel (32 * line) stop = none := by
  induction fuel generalizing line with
  | zero => rfl
  | succ fuel ih =>
      have hnext : ∃ next < 2 ^ 27, u32 (32 * line + fwCacheLineSize) = 32 * next := by
        refine ⟨(line + 1) % 2 ^ 27, Nat.mod_lt _ (by decide), ?_⟩
        rw [u32, fwCacheLineSize, show (2 : Nat) ^ 32 = 32 * 2 ^ 27 by decide,
          show 32 * line + 32 = 32 * (line + 1) by omega, Nat.mul_mod_mul_left]
      obtain ⟨next, hnext, heq⟩ := hnext
      rw [lineLoop, if_pos (by omega), heq, ih hnext]
      rfl

/-- The lines that the bytes from `addr` on meet. -/
def touchedLines (addr size : Nat) : List Nat :=
  List.range' (lineOf addr) (lineOf (addr + size - 1) + 1 - lineOf addr)

theorem mem_touchedLines (hsize : 0 < size) {l : Nat} :
    l ∈ touchedLines addr size ↔ ∃ x, addr ≤ x ∧ x < addr + size ∧ lineOf x = l := by
  rw [touchedLines, List.mem_range'_1, lineOf, lineOf, fwCacheLineSize]
  constructor
  · rintro ⟨hlow, hhigh⟩
    refine ⟨max addr (32 * l), Nat.le_max_left _ _, by omega, ?_⟩
    rw [lineOf, fwCacheLineSize]
    omega
  · rintro ⟨x, hlow, hhigh, rfl⟩
    rw [lineOf, fwCacheLineSize]
    omega

theorem maintainedLines_eq (haddr : addr < 2 ^ 32) (hsize : 0 < size)
    (hfits : addr + size ≤ 2 ^ 32 - 32) (hfuel : (touchedLines addr size).length < fuel) :
    maintainedLines fuel addr size = some ((touchedLines addr size).map (32 * ·)) := by
  rw [touchedLines, List.length_range'] at hfuel
  rw [maintainedLines, and_lineMask haddr, u32_of_lt (by omega), touchedLines]
  refine lineLoop_eq hfits ?_ hfuel
  rw [lineOf, lineOf, fwCacheLineSize]
  omega

/-- The operations that clean some lines. -/
def cleanOps (lines : List Nat) : List CacheOp :=
  lines.map (fun l => CacheOp.cleanLine (32 * l)) ++ [CacheOp.drainWriteBuffer]

/-- The operations that invalidate some lines. -/
def invalidateOps (lines : List Nat) : List CacheOp :=
  lines.map fun l => CacheOp.invalidateLine (32 * l)

theorem fwCacheClean_eq (hnull : addr ≠ fwNull) (hsize : 0 < size) {lines : List Nat}
    (hlines : maintainedLines fuel addr size = some (lines.map (32 * ·))) :
    fwCacheClean fuel addr size = some (cleanOps lines) := by
  rw [fwCacheClean, if_neg (by omega), hlines, Option.map_some, List.map_map]
  rfl

theorem fwCacheInvalidate_eq (hnull : addr ≠ fwNull) (hsize : 0 < size) {lines : List Nat}
    (hlines : maintainedLines fuel addr size = some (lines.map (32 * ·))) :
    fwCacheInvalidate fuel addr size = some (invalidateOps lines) := by
  rw [fwCacheInvalidate, if_neg (by omega), hlines, Option.map_some, List.map_map]
  rfl

/-- What the maintenance of a range does, by where the range ends. -/
structure Maintains (addr size : Nat) : Prop where
  below : addr + size ≤ 2 ^ 32 - 32 → ∀ fuel > (touchedLines addr size).length,
    fwCacheClean fuel addr size = some (cleanOps (touchedLines addr size)) ∧
      fwCacheInvalidate fuel addr size = some (invalidateOps (touchedLines addr size))
  top : 2 ^ 32 - 32 < addr + size → addr + size < 2 ^ 32 → ∀ fuel,
    fwCacheClean fuel addr size = none ∧ fwCacheInvalidate fuel addr size = none
  around : 2 ^ 32 ≤ addr + size → ∀ fuel > 0,
    fwCacheClean fuel addr size = some (cleanOps []) ∧
      fwCacheInvalidate fuel addr size = some (invalidateOps [])

/-- Cleaning and invalidating work on the lines that meet the range, each once. For a range that
reaches into the last line they do not return, and for one that reaches the end of the memory they
operate on no line. -/
theorem fwCache_maintains (haddr : addr < 2 ^ 32) (hnull : addr ≠ fwNull) (hsize : 0 < size)
    (hobject : size ≤ 2 ^ 32 - 32) :
    Maintains addr size ∧ (touchedLines addr size).Nodup ∧
      ∀ l, l ∈ touchedLines addr size ↔ ∃ x, addr ≤ x ∧ x < addr + size ∧ lineOf x = l := by
  have hrun : ¬ (addr = fwNull ∨ size = 0) := by omega
  refine ⟨⟨?_, ?_, ?_⟩, List.nodup_range', fun l => mem_touchedLines hsize⟩
  · intro hfits fuel hfuel
    have hlines := maintainedLines_eq haddr hsize hfits hfuel
    exact ⟨fwCacheClean_eq hnull hsize hlines, fwCacheInvalidate_eq hnull hsize hlines⟩
  · intro hhigh hlt fuel
    have hnone : maintainedLines fuel addr size = none := by
      rw [maintainedLines, and_lineMask haddr, u32_of_lt hlt]
      refine lineLoop_diverges hhigh ?_ fuel
      rw [lineOf, fwCacheLineSize]
      omega
    rw [fwCacheClean, fwCacheInvalidate, if_neg hrun, if_neg hrun, hnone]
    exact ⟨rfl, rfl⟩
  · intro hwrap fuel hfuel
    obtain ⟨fuel, rfl⟩ := Nat.exists_eq_succ_of_ne_zero (Nat.ne_of_gt hfuel)
    have hnothing : maintainedLines (fuel + 1) addr size = some (List.map (32 * ·) []) := by
      have hstop : ¬ 32 * lineOf addr < u32 (addr + size) := by
        rw [u32, lineOf, fwCacheLineSize]
        omega
      rw [maintainedLines, and_lineMask haddr, lineLoop, if_neg hstop]
      rfl
    exact ⟨fwCacheClean_eq hnull hsize hnothing, fwCacheInvalidate_eq hnull hsize hnothing⟩

/-- A buffer across the last line that the loops can leave. -/
theorem fwCache_maintains_sample :
    Maintains 0xFFFFFFC0 33 ∧ (touchedLines 0xFFFFFFC0 33).Nodup ∧
      ∀ l, l ∈ touchedLines 0xFFFFFFC0 33 ↔
        ∃ x, 0xFFFFFFC0 ≤ x ∧ x < 0xFFFFFFC0 + 33 ∧ lineOf x = l :=
  fwCache_maintains (by decide) (by decide) (by decide) (by decide)

end Lines

section Coherence

variable {addr size fuel : Nat}

/-- What the operations of a buffer do to a cache, with any events between them. -/
structure Coherent (addr size : Nat) (cleaning invalidating : List CacheOp) : Prop where
  transmit : ∀ (c : WriteBackCache Nat Nat UInt8) (es : List CacheEvent),
    (∀ x, addr ≤ x → x < addr + size → c.Current lineOf x) →
    (cleaning.flatMap CacheOp.events).Sublist es →
    (∀ e ∈ es, ∀ x, addr ≤ x → x < addr + size → e.Spares lineOf x) →
    ∀ x, addr ≤ x → x < addr + size →
      (c.after lineOf es).ram x = c.view lineOf x ∧
        (c.after lineOf es).view lineOf x = c.view lineOf x
  receive : ∀ (c : WriteBackCache Nat Nat UInt8) (transfer es : List CacheEvent),
    (∀ x, addr ≤ x → x < addr + size → c.Settled lineOf x) →
    (∀ e ∈ transfer ++ es, ∀ x, addr ≤ x → x < addr + size → e.Leaves lineOf x) →
    (∀ e ∈ es, ∀ x b, addr ≤ x → x < addr + size → e ≠ .deviceStore x b) →
    (invalidating.flatMap CacheOp.events).Sublist es →
    ∀ x, addr ≤ x → x < addr + size →
      ((c.after lineOf transfer).after lineOf es).view lineOf x =
        WriteBackCache.deviceValue x (c.ram x) transfer
  neighbours : ∀ (c : WriteBackCache Nat Nat UInt8) y,
    (c.after lineOf (invalidating.flatMap CacheOp.events)).view lineOf y =
      if lineOf y ∈ touchedLines addr size then c.ram y else c.view lineOf y
  flushed : ∀ (c : WriteBackCache Nat Nat UInt8) y,
    (c.after lineOf (fwCacheFlushAll.flatMap CacheOp.events)).view lineOf y = c.ram y

theorem lineOf_mul (l : Nat) : lineOf (32 * l) = l := Nat.mul_div_cancel_left l (by decide)

theorem cleanOps_events (lines : List Nat) :
    (cleanOps lines).flatMap CacheOp.events = lines.map .clean := by
  induction lines with
  | nil => rfl
  | cons l rest ih =>
      change CacheOp.events (.cleanLine (32 * l)) ++ (cleanOps rest).flatMap CacheOp.events = _
      rw [ih, CacheOp.events, lineOf_mul]
      rfl

theorem invalidateOps_events (lines : List Nat) :
    (invalidateOps lines).flatMap CacheOp.events = lines.map .invalidate := by
  induction lines with
  | nil => rfl
  | cons l rest ih =>
      change CacheOp.events (.invalidateLine (32 * l)) ++
        (invalidateOps rest).flatMap CacheOp.events = _
      rw [ih, CacheOp.events, lineOf_mul]
      rfl

/-- A cleaned buffer is in memory as the processor wrote it, and an invalidated one is read as a
device wrote it, whatever lines are loaded and evicted meanwhile. What waited to be written back
elsewhere on the invalidated lines, or anywhere for `fw_cache_flush_all`, is lost. -/
theorem fwCache_coherent (haddr : addr < 2 ^ 32) (hnull : addr ≠ fwNull) (hsize : 0 < size)
    (hfits : addr + size ≤ 2 ^ 32 - 32) (hfuel : (touchedLines addr size).length < fuel) :
    ∃ cleaning invalidating, fwCacheClean fuel addr size = some cleaning ∧
      fwCacheInvalidate fuel addr size = some invalidating ∧
      Coherent addr size cleaning invalidating := by
  have hlines := maintainedLines_eq haddr hsize hfits hfuel
  refine ⟨_, _, fwCacheClean_eq hnull hsize hlines, fwCacheInvalidate_eq hnull hsize hlines,
    ⟨?_, ?_, ?_, fun c y => rfl⟩⟩
  · intro c es hcurrent hops hspares x hlow hhigh
    rw [cleanOps_events] at hops
    have hmem : WriteBackCache.Event.clean (lineOf x) ∈ es :=
      hops.subset (List.mem_map_of_mem ((mem_touchedLines hsize).mpr ⟨x, hlow, hhigh, rfl⟩))
    obtain ⟨hview, hram⟩ := WriteBackCache.after_spares (hcurrent x hlow hhigh)
      fun e he => hspares e he x hlow hhigh
    exact ⟨hram (Or.inr hmem), hview⟩
  · intro c transfer es hsettled hleaves hdevice hops x hlow hhigh
    rw [invalidateOps_events] at hops
    have hmem : WriteBackCache.Event.invalidate (lineOf x) ∈ es :=
      hops.subset (List.mem_map_of_mem ((mem_touchedLines hsize).mpr ⟨x, hlow, hhigh, rfl⟩))
    obtain ⟨hlast, hram⟩ := WriteBackCache.after_leaves (hsettled x hlow hhigh)
      fun e he => hleaves e (List.mem_append_left _ he) x hlow hhigh
    rw [← hram]
    exact WriteBackCache.after_drops hlast
      (fun e he => hleaves e (List.mem_append_right _ he) x hlow hhigh)
      (fun e he b => hdevice e he x b hlow hhigh) (Or.inr ⟨_, hmem, rfl⟩)
  · intro c y
    rw [invalidateOps_events]
    exact WriteBackCache.after_invalidates c y _

/-- A buffer that starts and ends inside of lines. -/
theorem fwCache_coherent_sample :
    ∃ cleaning invalidating, fwCacheClean 4 0x1010 40 = some cleaning ∧
      fwCacheInvalidate 4 0x1010 40 = some invalidating ∧
      Coherent 0x1010 40 cleaning invalidating :=
  fwCache_coherent (by decide) (by decide) (by decide) (by decide) (by decide)

end Coherence

end ZeroEmbedded.Cache
