import ZeroEmbedded.Memory.HubRun
import ZeroEmbedded.Memory.PoolRun

/-!
# The safety reserve of the memory hub

The margin of an arena is tested without the padding in front of the aligned
address, so that a request may reach into the reserve. It is kept in every run
whose requests leave room for their padding.
-/

namespace ZeroEmbedded.Memory

open Foundation

/-- Every backend has at least `reserve_bytes` free. -/
def HubState.KeepsReserve (s : HubState) : Prop :=
  ∀ b ∈ s.hub.backends, b.reserveBytes ≤ s.heap.freeBytes b.handle

/-- Behind the block or the padded request that a backend gives away, the reserves of its pool or
arena are left. -/
def HubState.Spares (T : Target) (s : HubState) (size : Nat) (hints : UInt32) : Prop :=
  ∀ before b after, s.hub.server T s.heap size hints = some (before, b, after) →
    ∀ c ∈ s.hub.backends, c.handle = b.handle →
      c.reserveBytes + s.heap.taken T size b.handle ≤ s.heap.freeBytes b.handle

section Bytes

variable {T : Target} {heap : Heap} {handles : List FwMemHandle} {b : FwMemBackend} {size : Nat}

/-- A server loses what the request takes, and no other backend loses anything. -/
theorem Heap.Valid.serve_freeBytes (h : heap.Valid T handles) (hb : b.handle ∈ handles)
    (haccepts : heap.accepts T size b = true) :
    heap.taken T size b.handle ≤ heap.freeBytes b.handle ∧
      ∀ handle, (heap.serve T size b.handle).2.freeBytes handle =
        if handle = b.handle then heap.freeBytes b.handle - heap.taken T size b.handle
        else heap.freeBytes handle := by
  cases hhandle : b.handle with
  | pool p =>
      rw [hhandle] at hb
      obtain ⟨i, -, next, count, -, hcount, halloc, -⟩ :=
        h.serve_pool hb (h.freeBytes_pos hb hhandle haccepts) size
      have hbytes : heap.freeBytes (.pool p) =
          count * (heap.pools p).blockSize + (heap.pools p).blockSize := by
        rw [Heap.freeBytes, hcount, Nat.succ_mul]
      rw [hbytes, Heap.taken]
      refine ⟨Nat.le_add_left _ _, ?_⟩
      intro handle
      rw [Heap.serve, halloc, Nat.add_sub_cancel]
      split
      · next heq =>
          rw [heq, Heap.freeBytes]
          dsimp only
          rw [Function.update_self]
      · next hne =>
          cases handle with
          | pool q =>
              rw [Heap.freeBytes, Heap.freeBytes]
              dsimp only
              rw [Function.update_of_ne fun heq => hne (congrArg FwMemHandle.pool heq)]
          | arena a => rfl
  | arena a =>
      rw [hhandle] at hb
      have hroom : heap.taken T size (.arena a) ≤ heap.freeBytes (.arena a) := by
        rw [Heap.accepts, hhandle] at haccepts
        exact (of_decide_eq_true haccepts).2
      refine ⟨hroom, ?_⟩
      intro handle
      rw [Heap.serve]
      split
      · next heq =>
          rw [heq, Heap.freeBytes, Heap.freeBytes, Heap.taken]
          dsimp only
          rw [Function.update_self, FwArena.bumped]
          dsimp only
          omega
      · next hne =>
          cases handle with
          | pool q => rfl
          | arena c =>
              rw [Heap.freeBytes, Heap.freeBytes]
              dsimp only
              rw [Function.update_of_ne fun heq => hne (congrArg FwMemHandle.arena heq)]

/-- Nothing is lost by giving back a block. -/
theorem Heap.release_freeBytes (assert : Bool) (p i : Nat) (handle : FwMemHandle) :
    heap.freeBytes handle ≤ (heap.release T assert p i).freeBytes handle := by
  cases handle with
  | pool q =>
      rw [Heap.release, Heap.freeBytes, Heap.freeBytes]
      dsimp only
      by_cases heq : q = p
      · subst heq
        rw [Function.update_self]
        exact Nat.mul_le_mul_right _ (Nat.le_succ _)
      · rw [Function.update_of_ne heq]
  | arena a => exact Nat.le_refl _

/-- Replacing a backend by one of the same handle and reserve. -/
theorem forall_reserve_replace {before after : List FwMemBackend} {b b' : FwMemBackend}
    {P : FwMemHandle → Nat → Prop} (hhandle : b'.handle = b.handle)
    (hreserve : b'.reserveBytes = b.reserveBytes) :
    (∀ c ∈ before ++ b' :: after, P c.handle c.reserveBytes) ↔
      ∀ c ∈ before ++ b :: after, P c.handle c.reserveBytes := by
  simp only [List.forall_mem_append, List.forall_mem_cons, hhandle, hreserve]

end Bytes

namespace HubState

variable {T : Target} {assert : Bool} {s s' : HubState} {size : Nat} {hints : UInt32}
  {e : HubEvent}

/-- A request keeps the reserve if and only if it spares it. -/
theorem KeepsReserve.alloc_iff (hkeeps : s.KeepsReserve) (h : s.heap.Valid T s.hub.handles)
    (size : Nat) (hints : UInt32) (held : List Nat) :
    KeepsReserve ⟨(fwMemHubAlloc T s.heap s.hub size hints).2.1,
      (fwMemHubAlloc T s.heap s.hub size hints).2.2, held⟩ ↔ s.Spares T size hints := by
  rw [KeepsReserve, Spares]
  cases hserver : s.hub.server T s.heap size hints with
  | none =>
      obtain ⟨-, hheap, hbackends⟩ := fwMemHubAlloc_none h hserver
      rw [hheap, hbackends]
      exact iff_of_true hkeeps fun _ _ _ hnone => nomatch hnone
  | some r =>
      obtain ⟨before, b, after⟩ := r
      obtain ⟨-, hheap, hbackends⟩ := fwMemHubAlloc_some h hserver
      obtain ⟨-, hs, hb, haccepts⟩ := FwMemHub.server_some hserver
      obtain ⟨htaken, hbytes⟩ := h.serve_freeBytes hb haccepts
      dsimp only
      have hreplace : (∀ c ∈ before ++ b.grant T (s.heap.counted size b.handle) :: after,
          c.reserveBytes ≤ (s.heap.serve T size b.handle).2.freeBytes c.handle) ↔
            ∀ c ∈ s.hub.backends,
              c.reserveBytes ≤ (s.heap.serve T size b.handle).2.freeBytes c.handle := by
        rw [hs]
        exact forall_reserve_replace
          (P := fun handle bytes => bytes ≤ (s.heap.serve T size b.handle).2.freeBytes handle)
          rfl rfl
      rw [hheap, hbackends, hreplace]
      constructor
      · intro hafter before' b' after' hsome c hc hhandle
        cases hsome
        have hreserve := hafter c hc
        rw [hbytes, if_pos hhandle] at hreserve
        omega
      · -- a backend of the same handle is spared, and every other one is left alone
        intro hspares c hc
        rw [hbytes]
        split
        · next hhandle =>
            have hroom := hspares before b after rfl c hc hhandle
            omega
        · exact hkeeps c hc

/-- Giving a block back keeps the reserve. -/
theorem KeepsReserve.free (hkeeps : s.KeepsReserve) (h : s.heap.Valid T s.hub.handles)
    (ptr : Nat) (held : List Nat) :
    KeepsReserve ⟨(fwMemHubFree T assert s.heap s.hub ptr).2.1,
      (fwMemHubFree T assert s.heap s.hub ptr).2.2, held⟩ := by
  rcases fwMemHubFree_cases assert h ptr with
    ⟨-, status, -, heq⟩ | ⟨before, b, after, p, i, hs, -, -, -, -, heq, -⟩
  · rw [heq]
    exact hkeeps
  · rw [heq]
    have hall : ∀ c ∈ s.hub.backends, c.reserveBytes ≤
        (s.heap.release T assert p i).freeBytes c.handle :=
      fun c hc => Nat.le_trans (hkeeps c hc) (Heap.release_freeBytes assert p i c.handle)
    have hsame : (s.heap.unrecorded b p).handle = b.handle ∧
        (s.heap.unrecorded b p).reserveBytes = b.reserveBytes := by
      rw [Heap.unrecorded]
      split <;> exact ⟨rfl, rfl⟩
    rw [hs] at hall
    exact (forall_reserve_replace
      (P := fun handle bytes => bytes ≤ (s.heap.release T assert p i).freeBytes handle)
      hsame.1 hsame.2).mpr hall

/-- A pool that is registered once tests its reserve itself. -/
theorem spares_pool {before after : List FwMemBackend} {b : FwMemBackend} {p : Nat}
    (honce : s.hub.handles.Nodup) (hhandle : b.handle = .pool p)
    (hserver : s.hub.server T s.heap size hints = some (before, b, after)) :
    s.Spares T size hints := by
  obtain ⟨-, hs, -, haccepts⟩ := FwMemHub.server_some hserver
  intro before' b' after' hsome c hc hsame
  rw [hserver] at hsome
  cases hsome
  have hb : b ∈ s.hub.backends := by
    rw [hs]
    exact List.mem_append_right _ List.mem_cons_self
  have hcb : c = b := List.inj_on_of_nodup_map honce hc hb hsame
  rw [Heap.accepts, hhandle] at haccepts
  rw [hcb, hhandle]
  exact (of_decide_eq_true haccepts).2

end HubState

/-- The steps of a run whose requests spare the reserve. -/
def SparingStep (T : Target) (assert : Bool) (s : HubState) (e : HubEvent) (s' : HubState) : Prop :=
  HubStep T assert s e s' ∧ ∀ size hints ptr, e.call = .alloc size hints ptr →
    s.Spares T size hints

/-- In every run whose requests spare the reserve no backend drops below it, and a request keeps
the reserve if and only if it spares it. -/
theorem fwMemHub_reserve {T : Target} {assert : Bool} {s₀ s : HubState} {es : List HubEvent}
    (hvalid : s₀.heap.Valid T s₀.hub.handles) (hreserve : s₀.KeepsReserve)
    (hrun : Run (SparingStep T assert) s₀ es s) :
    s.KeepsReserve ∧ ∀ size hints held,
      (HubState.KeepsReserve ⟨(fwMemHubAlloc T s.heap s.hub size hints).2.1,
        (fwMemHubAlloc T s.heap s.hub size hints).2.2, held⟩ ↔ s.Spares T size hints) := by
  have hinv : s.heap.Valid T s.hub.handles ∧ s.KeepsReserve := by
    apply hrun.invariant (fun t _ => t.heap.Valid T t.hub.handles ∧ t.KeepsReserve)
      ⟨hvalid, hreserve⟩
    rintro t es e u ⟨h, hkeeps⟩ ⟨hstep, hspares⟩
    refine ⟨(hstep.valid h).1, ?_⟩
    cases hstep with
    | alloc size hints => exact (hkeeps.alloc_iff h size hints _).mpr (hspares size hints _ rfl)
    | free ptr => exact hkeeps.free h ptr _
    | write mem hwrites => exact hkeeps
  exact ⟨hinv.2, fun size hints held => hinv.2.alloc_iff hinv.1 size hints held⟩

/-- An arena of 512 bytes with a reserve of 128 bytes. -/
def sampleHub : HubState :=
  { heap :=
      { mem := fun _ => 0, pools := fun _ => samplePool, arenas := fun _ => ⟨4096, 512, 0, 0⟩ }
    hub := ⟨[⟨"bulk_sdram", fwMemTierBulk, .arena 1, 128, 0, 0⟩], 0, 0⟩
    held := [] }

theorem sampleHub_valid : sampleHub.heap.Valid ⟨4, Or.inl rfl⟩ sampleHub.hub.handles where
  pool p hp := by simp [sampleHub, FwMemHub.handles] at hp
  capacity_pos p hp := by simp [sampleHub, FwMemHub.handles] at hp
  arena _ _ := show FwArena.Valid _ ⟨4096, 512, 0, 0⟩ from ⟨by decide, by decide, by decide⟩
  apart p q hp := by simp [sampleHub, FwMemHub.handles] at hp

theorem fwMemHub_reserve_sample :
    ∃ s : HubState, (s.heap.arenas 1).offset = 384 ∧ s.KeepsReserve := by
  have hspares : sampleHub.Spares ⟨4, Or.inl rfl⟩ 384 0 := by
    intro before b after hserver c hc _
    have hsome : sampleHub.hub.server ⟨4, Or.inl rfl⟩ sampleHub.heap 384 0 =
        some ([], ⟨"bulk_sdram", fwMemTierBulk, .arena 1, 128, 0, 0⟩, []) := by decide +kernel
    rw [hsome] at hserver
    cases hserver
    rw [List.mem_singleton.mp hc]
    decide +kernel
  have halloc : HubStep ⟨4, Or.inl rfl⟩ true sampleHub _ _ := HubStep.alloc sampleHub 384 0
  have hrun : Run (SparingStep ⟨4, Or.inl rfl⟩ true) sampleHub _ _ := Run.single ⟨halloc, by
    intro size hints ptr hcall
    cases hcall
    exact hspares⟩
  have hstart : sampleHub.KeepsReserve := by
    intro b hb
    rw [List.mem_singleton.mp hb]
    decide +kernel
  exact ⟨_, by decide +kernel, (fwMemHub_reserve sampleHub_valid hstart hrun).1⟩

/-- A request of one byte moves the offset off its alignment; the padding of the next request is
not part of the margin. -/
theorem fwMemHub_breaks_reserve :
    sampleHub.heap.Valid ⟨4, Or.inl rfl⟩ sampleHub.hub.handles ∧ sampleHub.KeepsReserve ∧
      ∃ es s, Run (HubStep ⟨4, Or.inl rfl⟩ true) sampleHub es s ∧ es.length = 2 ∧
        ¬ s.KeepsReserve := by
  have hstart : sampleHub.KeepsReserve := by
    intro b hb
    rw [List.mem_singleton.mp hb]
    decide +kernel
  have hfirst : Run (HubStep ⟨4, Or.inl rfl⟩ true) sampleHub _ _ :=
    Run.single (HubStep.alloc _ 1 0)
  have hsecond := hfirst.snoc (HubStep.alloc _ 383 0)
  refine ⟨sampleHub_valid, hstart, _, _, hsecond, rfl, ?_⟩
  intro hkeeps
  have hreserve := hkeeps ⟨"bulk_sdram", fwMemTierBulk, .arena 1, 128, 384, 384⟩ (by decide +kernel)
  exact absurd hreserve (by decide +kernel)

end ZeroEmbedded.Memory
