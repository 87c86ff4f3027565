import ZeroEmbedded.Foundation.Intervals
import ZeroEmbedded.Foundation.Runs
import ZeroEmbedded.Memory.Arena

/-!
# Runs of an arena

A run of allocations, marks, rewinds and resets. The regions that have been
handed out and not released are stacked below the offset: a rewind to any
mark, also one inside of a region, keeps those that end at or below it.
-/

namespace ZeroEmbedded.Memory

open Foundation Foundation.Intervals

/-- A call on an arena; the arguments are `fw_size_t` values. -/
inductive ArenaCall (T : Target)
  | alloc (size alignment : Fin T.sizeMod)
  | mark
  | rewind (mark : Fin T.sizeMod)
  | reset

/-- A region that `fw_arena_alloc` has returned, with the alignment it was asked for. -/
structure Region where
  addr : Nat
  size : Nat
  alignment : Nat
  deriving DecidableEq, Repr

/-- The region lies inside of the buffer, at an address with its alignment. -/
structure Region.Placed (buffer capacity : Nat) (r : Region) : Prop where
  low : buffer ≤ r.addr
  high : r.addr + r.size ≤ buffer + capacity
  pow : ∃ k, r.alignment = 2 ^ k
  dvd : r.alignment ∣ r.addr

/-- The bytes of a region. -/
def Region.span (r : Region) : Nat × Nat := (r.addr, r.size)

/-- An arena, its memory, the regions that have not been released, and the offsets it has
had, the last one first. -/
structure ArenaRun where
  arena : FwArena
  memory : ByteMemory
  live : List Region
  offsets : List Nat

namespace ArenaRun

variable {T : Target} {poison : Bool}

/-- The state after a call that leaves `arena`, `memory` and the regions `live`. -/
def next (s : ArenaRun) (arena : FwArena) (memory : ByteMemory) (live : List Region) : ArenaRun :=
  { arena := arena, memory := memory, live := live, offsets := arena.offset :: s.offsets }

/-- One call. A rewind releases the regions that end above its mark, and a reset all. -/
def step (T : Target) (poison : Bool) (s : ArenaRun) : ArenaCall T → ArenaRun
  | .alloc size alignment =>
      let (addr, arena) := fwArenaAlloc T s.arena size alignment
      if addr = fwNull then s.next arena s.memory s.live
      else s.next arena s.memory (⟨addr, size, FwArena.alignmentOf T alignment⟩ :: s.live)
  | .mark => s.next s.arena s.memory s.live
  | .rewind mark =>
      let (arena, memory) := fwArenaRewind T poison s.arena mark s.memory
      s.next arena memory (s.live.filter fun r => r.addr + r.size ≤ s.arena.buffer + mark)
  | .reset =>
      let (arena, memory) := fwArenaReset poison s.arena s.memory
      s.next arena memory []

/-- Calls one after the other on an initialised arena. -/
def run (T : Target) (poison : Bool) (arena : FwArena) (memory : ByteMemory)
    (calls : List (ArenaCall T)) : ArenaRun :=
  calls.foldl (step T poison) ⟨arena, memory, [], [arena.offset]⟩

/-- What holds of an arena and the regions it has handed out. -/
structure Sound (T : Target) (buffer capacity : Nat) (s : ArenaRun) : Prop where
  buffer_eq : s.arena.buffer = buffer
  capacity_eq : s.arena.capacity = capacity
  fits : s.arena.Fits T
  stacked : Stacked buffer (buffer + s.arena.offset) (s.live.map Region.span)
  aligned : ∀ r ∈ s.live, (∃ k, r.alignment = 2 ^ k) ∧ r.alignment ∣ r.addr
  peak_mem : s.arena.peakUsed ∈ s.offsets
  peak_ge : ∀ o ∈ s.offsets, o ≤ s.arena.peakUsed
  offset_mem : s.arena.offset ∈ s.offsets

section Step

variable {buffer capacity : Nat} {s : ArenaRun}

theorem map_filter_span (live : List Region) (top : Nat) :
    (live.filter fun r => r.addr + r.size ≤ top).map Region.span =
      (live.map Region.span).filter fun a => a.1 + a.2 ≤ top := by
  rw [List.filter_map]
  rfl

/-- A call that does not raise the offset keeps the peak. -/
theorem Sound.next (h : Sound T buffer capacity s) (offset : Nat) {memory : ByteMemory}
    {live : List Region} (hle : offset ≤ s.arena.offset)
    (hstacked : Stacked buffer (buffer + offset) (live.map Region.span))
    (hlive : ∀ r ∈ live, r ∈ s.live) :
    Sound T buffer capacity (s.next { s.arena with offset := offset } memory live) where
  buffer_eq := h.buffer_eq
  capacity_eq := h.capacity_eq
  fits := ⟨h.fits.buffer_pos, h.fits.buffer_end, Nat.le_trans hle h.fits.offset_le⟩
  stacked := hstacked
  aligned r hr := h.aligned r (hlive r hr)
  peak_mem := List.mem_cons_of_mem _ h.peak_mem
  peak_ge o ho := by
    rcases List.mem_cons.mp ho with rfl | ho
    · exact Nat.le_trans hle (h.peak_ge _ h.offset_mem)
    · exact h.peak_ge o ho
  offset_mem := List.mem_cons_self

/-- A successful allocation hands out a region above all others. -/
theorem Sound.alloc (h : Sound T buffer capacity s) {size alignment : Nat}
    (hpow : ∃ k, alignment = 2 ^ k)
    (hfits : s.arena.padding T alignment + size ≤ s.arena.capacity - s.arena.offset)
    (hdvd : alignment ∣ s.arena.buffer + s.arena.offset + s.arena.padding T alignment) :
    Sound T buffer capacity (s.next (s.arena.bumped T size alignment).2 s.memory
      (⟨(s.arena.bumped T size alignment).1, size, alignment⟩ :: s.live)) := by
  have hbuffer := h.buffer_eq
  have htop := h.stacked.push (Nat.le_add_right _ _)
    (a := ((s.arena.bumped T size alignment).1, size)) (by
      change _ ≤ s.arena.buffer + s.arena.offset + s.arena.padding T alignment
      omega)
  refine ⟨hbuffer, h.capacity_eq, h.fits.bumped_fits hfits, ?_, ?_, ?_, ?_,
    List.mem_cons_self⟩
  · have hend : buffer + (s.arena.bumped T size alignment).2.offset =
        (s.arena.bumped T size alignment).1 + size := by
      change buffer + (s.arena.offset + s.arena.padding T alignment + size) =
        s.arena.buffer + s.arena.offset + s.arena.padding T alignment + size
      omega
    change Stacked buffer (buffer + (s.arena.bumped T size alignment).2.offset) _
    rw [hend]
    exact htop
  · intro r hr
    rcases List.mem_cons.mp hr with rfl | hr
    · exact ⟨hpow, hdvd⟩
    · exact h.aligned r hr
  · change max s.arena.peakUsed (s.arena.bumped T size alignment).2.offset ∈
      (s.arena.bumped T size alignment).2.offset :: s.offsets
    rcases Nat.le_total s.arena.peakUsed (s.arena.bumped T size alignment).2.offset with hle | hge
    · rw [Nat.max_eq_right hle]
      exact List.mem_cons_self
    · rw [Nat.max_eq_left hge]
      exact List.mem_cons_of_mem _ h.peak_mem
  · intro o ho
    change o ≤ max s.arena.peakUsed (s.arena.bumped T size alignment).2.offset
    rcases List.mem_cons.mp ho with rfl | ho
    · exact Nat.le_max_right _ _
    · exact Nat.le_trans (h.peak_ge o ho) (Nat.le_max_left _ _)

/-- Every call keeps the arena sound. -/
theorem Sound.step (h : Sound T buffer capacity s) (call : ArenaCall T) :
    Sound T buffer capacity (s.step T poison call) := by
  cases call with
  | alloc size alignment =>
      rw [ArenaRun.step]
      rcases h.fits.alloc_cases size alignment.isLt with hfail | ⟨hpow, -, hok, hfits, hdvd⟩
      · rw [hfail]
        exact h.next _ (Nat.le_refl _) h.stacked fun _ hr => hr
      · have hne : (s.arena.bumped T size (FwArena.alignmentOf T alignment)).1 ≠ fwNull := by
          have hbuffer := h.fits.buffer_pos
          rw [FwArena.bumped, fwNull]
          omega
        rw [hok]
        dsimp only
        rw [if_neg hne]
        exact h.alloc hpow hfits hdvd
  | mark => exact h.next _ (Nat.le_refl _) h.stacked fun _ hr => hr
  | rewind mark =>
      have hlive : ∀ r ∈ s.live.filter (fun r => r.addr + r.size ≤ s.arena.buffer + mark),
          r ∈ s.live := fun _ hr => List.mem_of_mem_filter hr
      rw [ArenaRun.step, fwArenaRewind]
      by_cases hmark : mark.val ≤ s.arena.offset
      · rw [if_pos hmark]
        refine h.next _ hmark ?_ hlive
        rw [map_filter_span, h.buffer_eq]
        exact h.stacked.cut _
      · rw [if_neg hmark]
        refine h.next _ (Nat.le_refl _) ?_ hlive
        rw [map_filter_span, h.stacked.cut_eq_self (by rw [h.buffer_eq]; omega)]
        exact h.stacked
  | reset => exact h.next _ (Nat.zero_le _) (Stacked.nil _ _) fun _ hr => absurd hr List.not_mem_nil

theorem Sound.run (h : Sound T buffer capacity s) (calls : List (ArenaCall T)) :
    Sound T buffer capacity (calls.foldl (ArenaRun.step T poison) s) := by
  induction calls generalizing s with
  | nil => exact h
  | cons call calls ih => exact ih (h.step call)

theorem Sound.placed (h : Sound T buffer capacity s) {r : Region} (hr : r ∈ s.live) :
    r.Placed buffer capacity := by
  have hmem : r.span ∈ s.live.map Region.span := List.mem_map_of_mem hr
  have hlow := h.stacked.low _ hmem
  have hhigh := h.stacked.high _ hmem
  have hoffset := h.fits.offset_le
  rw [h.capacity_eq] at hoffset
  exact ⟨hlow, Nat.le_trans hhigh (Nat.add_le_add_left hoffset buffer), (h.aligned r hr).1,
    (h.aligned r hr).2⟩

theorem Sound.failed (h : Sound T buffer capacity s) (size : Nat) (alignment : Fin T.sizeMod)
    (hfail : (fwArenaAlloc T s.arena size alignment).1 = fwNull) :
    (fwArenaAlloc T s.arena size alignment).2 = s.arena := by
  rcases h.fits.alloc_cases size alignment.isLt with hnull | ⟨-, -, hok, -, -⟩
  · rw [hnull]
  · have hbuffer := h.fits.buffer_pos
    rw [hok, FwArena.bumped, fwNull] at hfail
    dsimp only at hfail
    omega

/-- A call changes no byte of a region that it does not release. -/
theorem step_memory (call : ArenaCall T) {r : Region} (hr : r ∈ (s.step T poison call).live)
    {x : Nat} (hx : x < r.addr + r.size) : (s.step T poison call).memory x = s.memory x := by
  cases call with
  | alloc size alignment =>
      rw [ArenaRun.step]
      split
      split <;> rfl
  | mark => rfl
  | rewind mark =>
      have hend : r.addr + r.size ≤ s.arena.buffer + mark :=
        of_decide_eq_true (List.mem_filter.mp hr).2
      rw [ArenaRun.step, fwArenaRewind]
      by_cases hmark : mark.val ≤ s.arena.offset
      · rw [if_pos hmark]
        cases poison with
        | false => rfl
        | true => exact ByteMemory.fill_outside (Or.inl (by omega))
      · rw [if_neg hmark]
        rfl
  | reset => exact absurd hr List.not_mem_nil

end Step

/-- In every run the offset stays inside of the buffer, the regions that have not been released
are aligned, inside of the buffer and apart from each other, the peak is the greatest offset,
and an allocation that fails changes nothing. -/
theorem run_sound {buffer bufferSize : Nat} (hwrap : buffer + bufferSize ≤ T.sizeMod)
    {arena : FwArena} (hinit : fwArenaInit buffer bufferSize = .ok arena) (memory : ByteMemory)
    (calls : List (ArenaCall T)) :
    let s := run T poison arena memory calls
    s.arena.offset ≤ s.arena.capacity ∧
    (∀ r ∈ s.live, r.Placed buffer bufferSize) ∧
    s.live.Pairwise (fun r r' => Apart r.span r'.span) ∧
    (s.arena.peakUsed ∈ s.offsets ∧ ∀ o ∈ s.offsets, o ≤ s.arena.peakUsed) ∧
    ∀ size alignment : Fin T.sizeMod, (fwArenaAlloc T s.arena size alignment).1 = fwNull →
      (fwArenaAlloc T s.arena size alignment).2 = s.arena := by
  obtain ⟨rfl, hbuffer⟩ := FwArena.init_eq hinit
  have hstart : Sound T buffer bufferSize
      ⟨⟨buffer, bufferSize, 0, 0⟩, memory, [], [0]⟩ :=
    ⟨rfl, rfl, ⟨hbuffer, hwrap, Nat.zero_le _⟩, Stacked.nil _ _,
      fun _ hr => absurd hr List.not_mem_nil, List.mem_cons_self,
      fun o ho => Nat.le_of_eq (List.mem_singleton.mp ho), List.mem_cons_self⟩
  have hrun : Sound T buffer bufferSize (run T poison ⟨buffer, bufferSize, 0, 0⟩ memory calls) :=
    hstart.run calls
  exact ⟨hrun.fits.offset_le, fun _ hr => hrun.placed hr, List.pairwise_map.mp hrun.stacked.apart,
    ⟨hrun.peak_mem, hrun.peak_ge⟩, fun size alignment hfail => hrun.failed size alignment hfail⟩

/-- A buffer at the top of a 32-bit address space, and a stale mark inside of a region. -/
theorem run_sound_sample :
    let T : Target := ⟨4, Or.inl rfl⟩
    let s := run T true ⟨2 ^ 32 - 64, 64, 0, 0⟩ (fun _ => 0)
      [.alloc ⟨5, by decide⟩ ⟨1, by decide⟩, .alloc ⟨8, by decide⟩ ⟨8, by decide⟩,
        .rewind ⟨10, by decide⟩, .alloc ⟨60, by decide⟩ ⟨0, by decide⟩]
    s.arena.offset ≤ s.arena.capacity ∧
    (∀ r ∈ s.live, r.Placed (2 ^ 32 - 64) 64) ∧
    s.live.Pairwise (fun r r' => Apart r.span r'.span) ∧
    (s.arena.peakUsed ∈ s.offsets ∧ ∀ o ∈ s.offsets, o ≤ s.arena.peakUsed) ∧
    ∀ size alignment : Fin T.sizeMod, (fwArenaAlloc T s.arena size alignment).1 = fwNull →
      (fwArenaAlloc T s.arena size alignment).2 = s.arena :=
  @run_sound ⟨4, Or.inl rfl⟩ true (2 ^ 32 - 64) 64 (by decide) _ rfl _ _

end ArenaRun

end ZeroEmbedded.Memory
