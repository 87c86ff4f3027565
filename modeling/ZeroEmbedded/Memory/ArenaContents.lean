import ZeroEmbedded.Foundation.LastWord
import ZeroEmbedded.Memory.ArenaRun
import ZeroEmbedded.Memory.Span

/-!
# The contents of the regions of an arena

The other functions of `arena.c` and `arena.h`. Clients write into the regions
that they have been granted, while regions are granted with and without zeroing
and released with and without poisoning. A byte of a region is what its client
has written there, or the zero that it was granted with.
-/

namespace ZeroEmbedded.Memory

open Foundation Foundation.Intervals

/-- `fw_arena_alloc_zeroed`, and the memory after it. -/
def fwArenaAllocZeroed (T : Target) (arena : FwArena) (size alignment : Nat) (m : ByteMemory) :
    Nat × FwArena × ByteMemory :=
  let (ptr, arena) := fwArenaAlloc T arena size alignment
  if ptr ≠ fwNull then (ptr, arena, m.fill ptr size 0) else (ptr, arena, m)

/-- `fw_arena_alloc_span`. -/
def fwArenaAllocSpan (T : Target) (arena : FwArena) (size alignment : Nat) : FwSpan × FwArena :=
  let (ptr, arena) := fwArenaAlloc T arena size alignment
  if ptr = fwNull then (fwSpanMake fwNull 0, arena) else (fwSpanMake ptr size, arena)

/-- `fw_arena_used`. -/
def fwArenaUsed (arena : FwArena) : Nat := arena.offset

/-- `fw_arena_available`. -/
def fwArenaAvailable (arena : FwArena) : Nat :=
  if arena.capacity ≥ arena.offset then arena.capacity - arena.offset else 0

/-- `fw_arena_peak`. -/
def fwArenaPeak (arena : FwArena) : Nat := arena.peakUsed

/-- The byte belongs to the region at `ptr`, if there is one. -/
def InGrant (ptr size x : Nat) : Prop := ptr ≠ fwNull ∧ ptr ≤ x ∧ x < ptr + size

instance instDecidableInGrant (ptr size x : Nat) : Decidable (InGrant ptr size x) :=
  inferInstanceAs (Decidable (_ ∧ _ ∧ _))

/-- A call of a client with what an allocation returns to it, or a byte that it writes. -/
inductive ClientEvent (T : Target)
  | alloc (size alignment : Fin T.sizeMod) (ptr : Nat)
  | allocZeroed (size alignment : Fin T.sizeMod) (ptr : Nat)
  | allocSpan (size alignment : Fin T.sizeMod) (span : FwSpan)
  | mark
  | rewind (mark : Fin T.sizeMod)
  | reset
  | write (addr : Nat) (byte : UInt8)

/-- What an event says about the byte at `x`: its value, or that it is arbitrary. -/
def told {T : Target} (x : Nat) (_before : List (ClientEvent T)) :
    ClientEvent T → Option (Option UInt8)
  | .alloc size _ ptr => if InGrant ptr size x then some none else none
  | .allocZeroed size _ ptr => if InGrant ptr size x then some (some 0) else none
  | .allocSpan _ _ span => if InGrant span.data span.length x then some none else none
  | .write addr byte => if addr = x then some (some byte) else none
  | .mark | .rewind _ | .reset => none

namespace ArenaRun

/-- The state after an allocation that has returned `ptr`. -/
def granted (T : Target) (s : ArenaRun) (arena : FwArena) (memory : ByteMemory)
    (ptr size alignment : Nat) : ArenaRun :=
  if ptr = fwNull then s.next arena memory s.live
  else s.next arena memory (⟨ptr, size, FwArena.alignmentOf T alignment⟩ :: s.live)

/-- A step of the clients; they write into their regions only. -/
inductive ClientStep (T : Target) (poison : Bool) : ArenaRun → ClientEvent T → ArenaRun → Prop
  | alloc {s : ArenaRun} {size alignment : Fin T.sizeMod} {ptr : Nat} {arena : FwArena}
      (h : fwArenaAlloc T s.arena size alignment = (ptr, arena)) :
      ClientStep T poison s (.alloc size alignment ptr)
        (s.granted T arena s.memory ptr size alignment)
  | allocZeroed {s : ArenaRun} {size alignment : Fin T.sizeMod} {ptr : Nat} {arena : FwArena}
      {memory : ByteMemory}
      (h : fwArenaAllocZeroed T s.arena size alignment s.memory = (ptr, arena, memory)) :
      ClientStep T poison s (.allocZeroed size alignment ptr)
        (s.granted T arena memory ptr size alignment)
  | allocSpan {s : ArenaRun} {size alignment : Fin T.sizeMod} {span : FwSpan} {arena : FwArena}
      (h : fwArenaAllocSpan T s.arena size alignment = (span, arena)) :
      ClientStep T poison s (.allocSpan size alignment span)
        (s.granted T arena s.memory span.data span.length alignment)
  | mark (s : ArenaRun) : ClientStep T poison s .mark (s.step T poison .mark)
  | rewind (s : ArenaRun) (mark : Fin T.sizeMod) :
      ClientStep T poison s (.rewind mark) (s.step T poison (.rewind mark))
  | reset (s : ArenaRun) : ClientStep T poison s .reset (s.step T poison .reset)
  | write {s : ArenaRun} {r : Region} {i : Nat} (byte : UInt8) (hr : r ∈ s.live)
      (hi : i < r.size) :
      ClientStep T poison s (.write (r.addr + i) byte)
        { s with memory := s.memory.fill (r.addr + i) 1 byte }

/-- The byte at `x` has the value `v`, if it is in a region and has been told. -/
def ShowsByte (x : Nat) (s : ArenaRun) (v : Option UInt8) : Prop :=
  ∀ r ∈ s.live, r.addr ≤ x → x < r.addr + r.size → ∀ byte, v = some byte → s.memory x = byte

section Clients

variable {T : Target} {poison : Bool} {buffer capacity : Nat} {s s' : ArenaRun}
  {arena : FwArena} {memory : ByteMemory} {ptr size x : Nat} {v w : Option UInt8}
  {es : List (ClientEvent T)}

theorem allocZeroed_eq {alignment : Nat}
    (h : fwArenaAllocZeroed T s.arena size alignment s.memory = (ptr, arena, memory)) :
    fwArenaAlloc T s.arena size alignment = (ptr, arena) ∧
      memory = if ptr = fwNull then s.memory else s.memory.fill ptr size 0 := by
  rw [fwArenaAllocZeroed] at h
  dsimp only at h
  split at h
  · next hne =>
      cases h
      exact ⟨rfl, (if_neg hne).symm⟩
  · next heq =>
      cases h
      exact ⟨rfl, (if_pos (not_not.mp heq)).symm⟩

theorem allocSpan_eq {alignment : Nat} {span : FwSpan}
    (h : fwArenaAllocSpan T s.arena size alignment = (span, arena)) :
    fwArenaAlloc T s.arena size alignment = (span.data, arena) ∧
      (span.data = fwNull ∨ span.length = size) := by
  rw [fwArenaAllocSpan] at h
  dsimp only at h
  split at h
  · next heq =>
      cases h
      exact ⟨Prod.ext heq rfl, Or.inl rfl⟩
  · cases h
    exact ⟨rfl, Or.inr rfl⟩

/-- An initialised arena has granted nothing. -/
theorem Sound.of_init {bufferSize : Nat} (hwrap : buffer + bufferSize ≤ T.sizeMod)
    (hinit : fwArenaInit buffer bufferSize = .ok arena) (memory : ByteMemory) :
    Sound T buffer bufferSize ⟨arena, memory, [], [arena.offset]⟩ := by
  obtain ⟨rfl, hbuffer⟩ := FwArena.init_eq hinit
  exact {
    buffer_eq := rfl
    capacity_eq := rfl
    fits := ⟨hbuffer, hwrap, Nat.zero_le _⟩
    stacked := Stacked.nil _ _
    aligned := fun _ hr => absurd hr List.not_mem_nil
    peak_mem := List.mem_cons_self
    peak_ge := fun _ ho => Nat.le_of_eq (List.mem_singleton.mp ho)
    offset_mem := List.mem_cons_self }

/-- What holds of an arena does not depend on the memory. -/
theorem Sound.withMemory (h : Sound T buffer capacity s) (memory : ByteMemory) :
    Sound T buffer capacity { s with memory := memory } where
  buffer_eq := h.buffer_eq
  capacity_eq := h.capacity_eq
  fits := h.fits
  stacked := h.stacked
  aligned := h.aligned
  peak_mem := h.peak_mem
  peak_ge := h.peak_ge
  offset_mem := h.offset_mem

theorem Sound.granted (h : Sound T buffer capacity s) {size alignment : Fin T.sizeMod}
    (halloc : fwArenaAlloc T s.arena size alignment = (ptr, arena)) (memory : ByteMemory) {n : Nat}
    (hn : ptr = fwNull ∨ n = size) :
    Sound T buffer capacity (s.granted T arena memory ptr n alignment) := by
  have hstep : Sound T buffer capacity (s.step T false (.alloc size alignment)) := h.step _
  rw [ArenaRun.step, halloc] at hstep
  dsimp only at hstep
  rw [ArenaRun.granted]
  by_cases hnull : ptr = fwNull
  · rw [if_pos hnull] at hstep ⊢
    exact hstep.withMemory memory
  · rw [if_neg hnull] at hstep ⊢
    rw [hn.resolve_left hnull]
    exact hstep.withMemory memory

/-- Every step of the clients keeps the arena sound. -/
theorem Sound.clientStep (h : Sound T buffer capacity s) {e : ClientEvent T}
    (step : ClientStep T poison s e s') : Sound T buffer capacity s' := by
  cases step with
  | alloc halloc => exact h.granted halloc _ (Or.inr rfl)
  | allocZeroed halloc => exact h.granted (allocZeroed_eq halloc).1 _ (Or.inr rfl)
  | allocSpan halloc =>
      obtain ⟨hptr, hlength⟩ := allocSpan_eq halloc
      exact h.granted hptr _ hlength
  | mark => exact h.step .mark
  | rewind mark => exact h.step (.rewind mark)
  | reset => exact h.step .reset
  | write byte hr hi => exact h.withMemory _

/-- A grant says what the bytes of its region are, and leaves the bytes of the others alone. -/
theorem ShowsByte.granted (h : ShowsByte x s v) {alignment : Nat}
    (houtside : ¬ InGrant ptr size x → memory x = s.memory x)
    (hinside : InGrant ptr size x → ∀ byte, w = some byte → memory x = byte) :
    ShowsByte x (s.granted T arena memory ptr size alignment)
      ((if InGrant ptr size x then some w else none).getD v) := by
  intro r hr hlow hhigh byte hbyte
  have hmemory : (s.granted T arena memory ptr size alignment).memory = memory := by
    rw [ArenaRun.granted]
    split <;> rfl
  rw [hmemory]
  by_cases hin : InGrant ptr size x
  · rw [if_pos hin] at hbyte
    exact hinside hin byte hbyte
  · rw [if_neg hin] at hbyte
    rw [houtside hin]
    refine h r ?_ hlow hhigh byte hbyte
    rw [ArenaRun.granted] at hr
    split at hr
    · exact hr
    · next hne =>
        rcases List.mem_cons.mp hr with rfl | hr
        · exact absurd ⟨hne, hlow, hhigh⟩ hin
        · exact hr

/-- A call that releases regions keeps the bytes of the others. -/
theorem ShowsByte.released (h : ShowsByte x s v) (call : ArenaCall T)
    (hlive : ∀ r ∈ (s.step T poison call).live, r ∈ s.live) :
    ShowsByte x (s.step T poison call) v := by
  intro r hr hlow hhigh byte hbyte
  rw [step_memory call hr hhigh]
  exact h r (hlive r hr) hlow hhigh byte hbyte

theorem showsByte_step {e : ClientEvent T} (h : ShowsByte x s v)
    (step : ClientStep T poison s e s') : ShowsByte x s' ((told x es e).getD v) := by
  cases step with
  | alloc halloc => exact h.granted (fun _ => rfl) fun _ byte hbyte => nomatch hbyte
  | allocZeroed halloc =>
      obtain ⟨-, hmemory⟩ := allocZeroed_eq halloc
      refine h.granted ?_ ?_
      · intro hout
        rw [hmemory]
        split
        · rfl
        · next hne => exact ByteMemory.fill_outside (by rw [InGrant] at hout; omega)
      · intro hin byte hbyte
        rw [hmemory, if_neg hin.1, ByteMemory.fill, if_pos hin.2]
        exact Option.some_inj.mp hbyte
  | allocSpan halloc => exact h.granted (fun _ => rfl) fun _ byte hbyte => nomatch hbyte
  | mark => exact h.released .mark fun _ hr => hr
  | rewind mark =>
      refine h.released (.rewind mark) fun r hr => ?_
      exact List.mem_of_mem_filter hr
  | reset => exact h.released .reset fun r hr => absurd hr List.not_mem_nil
  | @write r i byte hr hi =>
      intro r' hr' hlow hhigh b hb
      rw [told] at hb
      by_cases hx : r.addr + i = x
      · rw [if_pos hx] at hb
        change s.memory.fill (r.addr + i) 1 byte x = b
        rw [ByteMemory.fill, if_pos (by omega)]
        exact Option.some_inj.mp hb
      · rw [if_neg hx] at hb
        change s.memory.fill (r.addr + i) 1 byte x = b
        rw [ByteMemory.fill_outside (by omega)]
        exact h r' hr' hlow hhigh b hb

/-- In every run the regions that have not been released are aligned, inside of the buffer and
apart from each other, and each of their bytes is what was last written there, or zero behind an
allocation that clears, whatever is granted, released and poisoned beside it. The used and the
available bytes add up to the buffer, and the peak is the greatest number of used bytes. -/
theorem fwArena_keepsContents {bufferSize : Nat} (hwrap : buffer + bufferSize ≤ T.sizeMod)
    (hinit : fwArenaInit buffer bufferSize = .ok arena)
    (run : Run (ClientStep T poison) ⟨arena, memory, [], [arena.offset]⟩ es s) :
    (∀ r ∈ s.live, r.Placed buffer bufferSize) ∧
      s.live.Pairwise (fun r r' => Apart r.span r'.span) ∧
      (∀ x, ∃ v, LastWord (told x) none es v ∧ ShowsByte x s v) ∧
      fwArenaUsed s.arena + fwArenaAvailable s.arena = bufferSize ∧
      fwArenaPeak s.arena ∈ s.offsets ∧ ∀ used ∈ s.offsets, used ≤ fwArenaPeak s.arena := by
  have hsound : Sound T buffer bufferSize s :=
    run.invariant (fun t _ => Sound T buffer bufferSize t) (Sound.of_init hwrap hinit memory)
      fun _ _ _ _ ih step => ih.clientStep step
  refine ⟨fun _ hr => hsound.placed hr, List.pairwise_map.mp hsound.stacked.apart, ?_, ?_,
    hsound.peak_mem, hsound.peak_ge⟩
  · intro x
    exact LastWord.exists_of_run (ShowsByte x) run (fun r hr => absurd hr List.not_mem_nil)
      fun _ _ _ _ _ _ step hshows => showsByte_step hshows step
  · have hle := hsound.fits.offset_le
    have hcapacity := hsound.capacity_eq
    rw [fwArenaUsed, fwArenaAvailable, if_pos hle]
    omega

/-- A cleared region, a byte written into it, and a region beside it that is released. -/
theorem fwArena_keepsContents_sample :
    let start : ArenaRun := ⟨⟨64, 32, 0, 0⟩, fun _ => 0xAA, [], [0]⟩
    ∃ (es : List (ClientEvent target32)) (s : ArenaRun),
      Run (ClientStep target32 true) start es s ∧ s.live = [⟨64, 4, 1⟩] ∧
      fwArenaUsed s.arena + fwArenaAvailable s.arena = 32 ∧
      ∀ x, ∃ v, LastWord (told x) none es v ∧ ShowsByte x s v := by
  intro start
  have hwrap : 64 + 32 ≤ target32.sizeMod := by decide
  have hinit : fwArenaInit 64 32 = .ok ⟨64, 32, 0, 0⟩ := rfl
  have halloc : fwArenaAlloc target32 ⟨64, 32, 0, 0⟩ 4 1 = (64, ⟨64, 32, 4, 4⟩) := by decide
  have hzeroed : fwArenaAllocZeroed target32 start.arena 4 1 start.memory =
      (64, ⟨64, 32, 4, 4⟩, start.memory.fill 64 4 0) := by
    rw [fwArenaAllocZeroed, halloc]
    rfl
  have hspan : fwArenaAllocSpan target32 ⟨64, 32, 4, 4⟩ 8 4 = (⟨68, 8⟩, ⟨64, 32, 12, 12⟩) := by
    decide
  have grant := @ClientStep.allocZeroed target32 true start ⟨4, by decide⟩ ⟨1, by decide⟩ 64
    ⟨64, 32, 4, 4⟩ (start.memory.fill 64 4 0) hzeroed
  have write := @ClientStep.write target32 true
    (start.granted target32 ⟨64, 32, 4, 4⟩ (start.memory.fill 64 4 0) 64 4 1) ⟨64, 4, 1⟩ 2 7
    List.mem_cons_self (by decide)
  have run := (((Run.nil start).snoc grant).snoc write).snoc
    (@ClientStep.allocSpan target32 true _ ⟨8, by decide⟩ ⟨4, by decide⟩ ⟨68, 8⟩ ⟨64, 32, 12, 12⟩
      hspan) |>.snoc (.rewind _ ⟨4, by decide⟩)
  have hkeeps := @fwArena_keepsContents target32 true 64 _ ⟨64, 32, 0, 0⟩ (fun _ => 0xAA) _ 32 hwrap
    hinit run
  exact ⟨_, _, run, rfl, hkeeps.2.2.2.1, hkeeps.2.2.1⟩

end Clients

end ArenaRun

end ZeroEmbedded.Memory
