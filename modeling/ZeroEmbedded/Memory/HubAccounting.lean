import ZeroEmbedded.Memory.HubRun
import ZeroEmbedded.Memory.PoolRun

/-!
# The accounts of the memory hub

The counters of the hub, the free counts and bitmaps of its pools and the
offsets of its arenas are kept in step by every call. Granted and held memory
is determined by the results of the calls.
-/

namespace ZeroEmbedded.Memory

open Foundation Foundation.Intervals

/-- A successful registration. -/
inductive RegisterStep : FwMemHub → FwMemHandle → FwMemHub → Prop
  | pool {hub hub' : FwMemHub} {tier pool : Nat} {name : Option String} {reserveBytes : Nat}
      (registered : fwMemHubRegisterPool hub tier pool name reserveBytes = (.ok, hub')) :
      RegisterStep hub (.pool pool) hub'
  | arena {hub hub' : FwMemHub} {tier arena : Nat} {name : Option String} {reserveBytes : Nat}
      (registered : fwMemHubRegisterArena hub tier arena name reserveBytes = (.ok, hub')) :
      RegisterStep hub (.arena arena) hub'

/-- A hub over freshly initialised pools and arenas in separate buffers, each registered once. -/
structure FreshHub (T : Target) (buffer : FwMemHandle → Nat × Nat) (s : HubState) : Prop where
  registered : ∃ handles, Run RegisterStep fwMemHubInit handles s.hub
  once : s.hub.handles.Nodup
  apart : ∀ h ∈ s.hub.handles, ∀ h' ∈ s.hub.handles, h ≠ h' → Apart (buffer h) (buffer h')
  object : ∀ h ∈ s.hub.handles, (buffer h).1 + (buffer h).2 < T.sizeMod
  pool : ∀ p, .pool p ∈ s.hub.handles → ∃ m m' blockSize alignment,
    blockSize < T.sizeMod ∧ alignment < T.sizeMod ∧
      fwPoolInit T m (buffer (.pool p)).1 (buffer (.pool p)).2 blockSize alignment =
        .ok (s.heap.pools p, m') ∧
      ByteMemory.AgreeOn m' s.heap.mem (buffer (.pool p)).1
        ((buffer (.pool p)).1 + (buffer (.pool p)).2)
  arena : ∀ a, .arena a ∈ s.hub.handles →
    fwArenaInit (buffer (.arena a)).1 (buffer (.arena a)).2 = .ok (s.heap.arenas a)
  held : s.held = []

/-- The memory of a pool or an arena, by start and length. -/
def Heap.extentOf (heap : Heap) : FwMemHandle → Nat × Nat
  | .pool p => (heap.pools p).extent
  | .arena a => ((heap.arenas a).buffer, (heap.arenas a).capacity)

/-- The bytes that a call grants inside of a region. -/
def HubCall.bytesIn (region : Nat × Nat) : HubCall → Nat
  | .alloc size _ ptr => if region.1 ≤ ptr ∧ ptr < region.1 + region.2 then size else 0
  | .free _ _ => 0
  | .write => 0

/-- The sum of the sizes that were granted inside of a region. -/
def granted (es : List HubEvent) (region : Nat × Nat) : Nat :=
  (es.map fun e => e.call.bytesIn region).sum

/-- `allocated_bytes` of the backend at an index. -/
def FwMemHub.allocatedAt (hub : FwMemHub) (i : Nat) : Nat :=
  (hub.backends.map (·.allocatedBytes)).getD i 0

/-- `peak_used_bytes` of the backend at an index. -/
def FwMemHub.peakAt (hub : FwMemHub) (i : Nat) : Nat :=
  (hub.backends.map (·.peakUsedBytes)).getD i 0

/-- The largest value that `allocated_bytes` has had. -/
def highest (es : List HubEvent) (i : Nat) : Nat :=
  (es.map fun e => e.hub.allocatedAt i).foldl max 0

/-- The bit of block `i` of a pool. -/
def Heap.isSet (heap : Heap) (p i : Nat) : Bool :=
  heap.mem.bitAt (heap.pools p).allocBitmap i

section Histories

variable {es : List HubEvent} {e : HubEvent} {region : Nat × Nat} {i : Nat}

theorem granted_concat :
    granted (es ++ [e]) region = granted es region + e.call.bytesIn region := by
  rw [granted, granted, List.map_append, List.sum_append, List.map_singleton, List.sum_singleton]

theorem highest_concat : highest (es ++ [e]) i = max (highest es i) (e.hub.allocatedAt i) := by
  rw [highest, highest, List.map_append, List.foldl_append]
  rfl

end Histories

section Backends

variable {before after : List FwMemBackend} {b b' c : FwMemBackend}

/-- The other backends have other handles. -/
theorem mem_replace (honce : ((before ++ b :: after).map (·.handle)).Nodup)
    (hc : c ∈ before ++ b' :: after) :
    c = b' ∨ (c ∈ before ++ b :: after ∧ c.handle ≠ b.handle) := by
  rw [List.map_append, List.map_cons] at honce
  have hcons := (List.nodup_middle.mp honce)
  rw [List.nodup_cons, ← List.map_append] at hcons
  have hother : c ∈ before ++ after → c.handle ≠ b.handle := by
    intro hmem heq
    apply hcons.1
    rw [← heq]
    exact List.mem_map_of_mem hmem
  rcases List.mem_append.mp hc with hc | hc
  · exact Or.inr ⟨List.mem_append_left _ hc, hother (List.mem_append_left _ hc)⟩
  · rcases List.mem_cons.mp hc with rfl | hc
    · exact Or.inl rfl
    · exact Or.inr ⟨List.mem_append_right _ (List.mem_cons_of_mem _ hc),
        hother (List.mem_append_right _ hc)⟩

/-- A column of the backends after one of them was replaced. -/
theorem getD_replace (f : FwMemBackend → Nat) (i : Nat) :
    ((before ++ b' :: after).map f).getD i 0 =
      if i = before.length then f b' else ((before ++ b :: after).map f).getD i 0 := by
  have hset : (before ++ b' :: after).map f =
      ((before ++ b :: after).map f).set before.length (f b') := by
    rw [List.map_append, List.map_append, List.set_append_right _ _ (by simp)]
    simp
  rw [hset, List.getD_eq_getElem?_getD, List.getD_eq_getElem?_getD, List.getElem?_set]
  by_cases hi : i = before.length
  · subst hi
    simp
  · rw [if_neg (Ne.symm hi), if_neg hi]

end Backends

/-- No control structure moves. -/
structure Heap.SameLayout (heap heap' : Heap) : Prop where
  pool : ∀ p, ∃ list count,
    heap'.pools p = { heap.pools p with freeList := list, freeCount := count }
  arena : ∀ a, (heap'.arenas a).buffer = (heap.arenas a).buffer ∧
    (heap'.arenas a).capacity = (heap.arenas a).capacity

namespace Heap

variable {T : Target} {heap heap' : Heap} {handles : List FwMemHandle} {b : FwMemBackend}
  {p q i j size x : Nat}

namespace SameLayout

theorem refl (heap : Heap) : heap.SameLayout heap :=
  ⟨fun _ => ⟨_, _, rfl⟩, fun _ => ⟨rfl, rfl⟩⟩

theorem capacity (h : heap.SameLayout heap') (p : Nat) :
    (heap'.pools p).capacity = (heap.pools p).capacity := by
  obtain ⟨list, count, hp⟩ := h.pool p
  rw [hp]

theorem blockSize (h : heap.SameLayout heap') (p : Nat) :
    (heap'.pools p).blockSize = (heap.pools p).blockSize := by
  obtain ⟨list, count, hp⟩ := h.pool p
  rw [hp]

theorem addr (h : heap.SameLayout heap') (p i : Nat) :
    (heap'.pools p).addr i = (heap.pools p).addr i := by
  obtain ⟨list, count, hp⟩ := h.pool p
  rw [hp]
  rfl

theorem extentOf (h : heap.SameLayout heap') (handle : FwMemHandle) :
    heap'.extentOf handle = heap.extentOf handle := by
  cases handle with
  | pool p =>
      obtain ⟨list, count, hp⟩ := h.pool p
      rw [Heap.extentOf, hp]
      rfl
  | arena a =>
      obtain ⟨hbuffer, hcapacity⟩ := h.arena a
      rw [Heap.extentOf, hbuffer, hcapacity]
      rfl

end SameLayout

/-- One pool with another free list. -/
theorem sameLayout_update {mem : ByteMemory} {list count : Nat} :
    heap.SameLayout { heap with
      mem := mem
      pools := Function.update heap.pools p
        { heap.pools p with freeList := list, freeCount := count } } where
  pool q := by
    dsimp only
    by_cases heq : q = p
    · subst heq
      rw [Function.update_self]
      exact ⟨_, _, rfl⟩
    · rw [Function.update_of_ne heq]
      exact ⟨_, _, rfl⟩
  arena a := ⟨rfl, rfl⟩

/-- A block lies in its pool. -/
theorem Valid.addr_inside (h : heap.Valid T handles) (hp : .pool p ∈ handles)
    (hi : i < (heap.pools p).capacity) :
    (heap.extentOf (.pool p)).1 ≤ (heap.pools p).addr i ∧
      (heap.pools p).addr i < (heap.extentOf (.pool p)).1 + (heap.extentOf (.pool p)).2 := by
  obtain ⟨free, hfree⟩ := h.pool p hp
  have hend := hfree.layout.extent_end
  have hblock := FwPool.addr_end hi
  have hpos := hfree.layout.blockSize_pos
  have hle := hfree.layout.bitmap_le
  have hstart : (heap.pools p).storage ≤ (heap.pools p).addr i := Nat.le_add_right _ _
  rw [Heap.extentOf, hend]
  exact ⟨Nat.le_trans hle hstart, by omega⟩

/-- The bits of a pool are read from its extent. -/
theorem Valid.isSet_congr (h : heap.Valid T handles) (hp : .pool p ∈ handles)
    (hi : i < (heap.pools p).capacity)
    (hbitmap : (heap'.pools p).allocBitmap = (heap.pools p).allocBitmap)
    (hmem : ∀ x, (heap.extentOf (.pool p)).1 ≤ x →
      x < (heap.extentOf (.pool p)).1 + (heap.extentOf (.pool p)).2 → heap'.mem x = heap.mem x) :
    heap'.isSet p i = heap.isSet p i := by
  obtain ⟨free, hfree⟩ := h.pool p hp
  have hend := hfree.layout.extent_end
  have hword := hfree.layout.word_end hi
  rw [Heap.extentOf, hend] at hmem
  rw [isSet, isSet, hbitmap, ByteMemory.bitAt, ByteMemory.bitAt, ByteMemory.AgreeOn.loadWord_eq]
  intro x hlow hhigh
  exact hmem x (Nat.le_trans (Nat.le_add_right _ _) hlow) (by omega)

/-- What a server does: no structure moves, the address lies in its memory, nothing changes
outside of it, and the bit of the address is set. -/
theorem Valid.serve_spec (h : heap.Valid T handles) (hb : b.handle ∈ handles) (hsize : size ≠ 0)
    (haccepts : heap.accepts T size b = true) :
    heap.SameLayout (heap.serve T size b.handle).2 ∧
      ((heap.extentOf b.handle).1 ≤ (heap.serve T size b.handle).1 ∧
        (heap.serve T size b.handle).1 <
          (heap.extentOf b.handle).1 + (heap.extentOf b.handle).2) ∧
      ∀ x, (x < (heap.extentOf b.handle).1 ∨
        (heap.extentOf b.handle).1 + (heap.extentOf b.handle).2 ≤ x) →
          (heap.serve T size b.handle).2.mem x = heap.mem x := by
  cases hhandle : b.handle with
  | pool p =>
      rw [hhandle] at hb
      obtain ⟨i, hi, next, count, -, -, halloc, -⟩ :=
        h.serve_pool hb (h.freeBytes_pos hb hhandle haccepts) size
      obtain ⟨free, hfree⟩ := h.pool p hb
      have hend := hfree.layout.extent_end
      have hinside := h.addr_inside hb hi
      rw [serve, halloc]
      refine ⟨sameLayout_update, hinside, ?_⟩
      intro x hx
      rw [Heap.extentOf, hend] at hx
      exact hfree.layout.setBit_outside hi hx
  | arena a =>
      rw [hhandle] at hb
      have hroom : (heap.arenas a).padding T 4 + size ≤
          (heap.arenas a).capacity - (heap.arenas a).offset := by
        rw [accepts, hhandle] at haccepts
        exact (of_decide_eq_true haccepts).2
      rw [serve, FwArena.bumped]
      refine ⟨⟨fun _ => ⟨_, _, rfl⟩, ?_⟩, ?_, fun x _ => rfl⟩
      · intro c
        dsimp only
        by_cases heq : c = a
        · subst heq
          rw [Function.update_self]
          exact ⟨rfl, rfl⟩
        · rw [Function.update_of_ne heq]
          exact ⟨rfl, rfl⟩
      · rw [Heap.extentOf]
        dsimp only
        omega

/-- Only the bit of the granted block is set. -/
theorem Valid.serve_isSet (h : heap.Valid T handles) (hb : b.handle ∈ handles) (hsize : size ≠ 0)
    (hapart : ∀ h ∈ handles, ∀ h' ∈ handles, h ≠ h' → Apart (heap.extentOf h) (heap.extentOf h'))
    (haccepts : heap.accepts T size b = true) (hq : .pool q ∈ handles)
    (hj : j < (heap.pools q).capacity) :
    (heap.serve T size b.handle).2.isSet q j =
      (decide ((heap.serve T size b.handle).1 = (heap.pools q).addr j) || heap.isSet q j) := by
  obtain ⟨hlayout, hinside, hmem⟩ := h.serve_spec hb hsize haccepts
  have haddr := h.addr_inside hq hj
  by_cases hhandle : b.handle = .pool q
  · rw [hhandle]
    obtain ⟨i, hi, next, count, -, -, halloc, -⟩ :=
      h.serve_pool hq (h.freeBytes_pos hq hhandle haccepts) size
    obtain ⟨free, hfree⟩ := h.pool q hq
    rw [serve, halloc, isSet, isSet]
    dsimp only
    rw [Function.update_self]
    dsimp only
    rw [ByteMemory.bitAt_setBit]
    congr 1
    rw [decide_eq_decide]
    exact ⟨fun heq => by rw [heq], fun heq => hfree.layout.addr_inj heq⟩
  · have hother := hapart _ hb _ hq hhandle
    have hne : (heap.serve T size b.handle).1 ≠ (heap.pools q).addr j := by
      rcases hother with hother | hother <;> omega
    rw [decide_eq_false hne, Bool.false_or]
    apply h.isSet_congr hq hj
    · obtain ⟨list, count, hq'⟩ := hlayout.pool q
      rw [hq']
    · intro x hlow hhigh
      apply hmem
      rcases hother with hother | hother
      · exact Or.inr (Nat.le_trans hother hlow)
      · exact Or.inl (Nat.lt_of_lt_of_le hhigh hother)

/-- Freeing a block changes nothing outside of its pool. -/
theorem Valid.release_outside (assert : Bool) (h : heap.Valid T handles) (hp : .pool p ∈ handles)
    (hi : i < (heap.pools p).capacity) (hx : x < (heap.extentOf (.pool p)).1 ∨
      (heap.extentOf (.pool p)).1 + (heap.extentOf (.pool p)).2 ≤ x) :
    (heap.release T assert p i).mem x = heap.mem x := by
  obtain ⟨free, hfree⟩ := h.pool p hp
  have hend := hfree.layout.extent_end
  rw [Heap.extentOf, hend] at hx
  exact hfree.freed_same hi hx

/-- Only the bit of the freed block is cleared. -/
theorem Valid.release_isSet (assert : Bool) (h : heap.Valid T handles) (hp : .pool p ∈ handles)
    (hapart : ∀ h ∈ handles, ∀ h' ∈ handles, h ≠ h' → Apart (heap.extentOf h) (heap.extentOf h'))
    (hi : i < (heap.pools p).capacity) (hset : heap.isSet p i = true) (hq : .pool q ∈ handles)
    (hj : j < (heap.pools q).capacity) :
    (heap.release T assert p i).isSet q j =
      (!decide ((heap.pools p).addr i = (heap.pools q).addr j) && heap.isSet q j) := by
  have haddr := h.addr_inside hp hi
  have haddr' := h.addr_inside hq hj
  by_cases heq : p = q
  · subst heq
    obtain ⟨free, hfree⟩ := h.pool p hp
    have hnotin : i ∉ free := (hfree.bits i hi).mp hset
    have hrepresents := (hfree.free_ok assert hi hnotin).2
    have hbit : (heap.release T assert p i).isSet p j = true ↔ j ∉ i :: free := by
      rw [isSet, release]
      dsimp only
      rw [Function.update_self]
      exact hrepresents.bits j hj
    rw [Bool.eq_iff_iff, hbit, Bool.and_eq_true, Bool.not_eq_true', decide_eq_false_iff_not,
      List.mem_cons, not_or]
    have hold : heap.isSet p j = true ↔ j ∉ free := hfree.bits j hj
    rw [hold]
    apply and_congr_left'
    exact not_congr ⟨fun heq => by rw [heq], fun heq => (hfree.layout.addr_inj heq).symm⟩
  · have hother := hapart _ hp _ hq fun hsame => heq (FwMemHandle.pool.inj hsame)
    have hne : (heap.pools p).addr i ≠ (heap.pools q).addr j := by
      rcases hother with hother | hother <;> omega
    rw [decide_eq_false hne, Bool.not_false, Bool.true_and]
    apply h.isSet_congr hq hj
    · rw [release]
      dsimp only
      rw [Function.update_of_ne (Ne.symm heq)]
    · intro x hlow hhigh
      apply h.release_outside assert hp hi
      rcases hother with hother | hother
      · exact Or.inr (Nat.le_trans hother hlow)
      · exact Or.inl (Nat.lt_of_lt_of_le hhigh hother)

end Heap

/-- The counters of the hub agree with its pools and arenas and with the calls so far. -/
structure HubState.Accounts (T : Target) (s : HubState) (es : List HubEvent) : Prop where
  valid : s.heap.Valid T s.hub.handles
  once : s.hub.handles.Nodup
  apart : ∀ h ∈ s.hub.handles, ∀ h' ∈ s.hub.handles, h ≠ h' →
    Apart (s.heap.extentOf h) (s.heap.extentOf h')
  pool : ∀ b ∈ s.hub.backends, ∀ p, b.handle = .pool p →
    b.allocatedBytes = (s.heap.pools p).blockSize *
      ((s.heap.pools p).capacity - (s.heap.pools p).freeCount)
  arena : ∀ b ∈ s.hub.backends, ∀ a, b.handle = .arena a →
    b.allocatedBytes = granted es (s.heap.extentOf (.arena a)) ∧
      b.allocatedBytes ≤ (s.heap.arenas a).offset
  peak : ∀ i, s.hub.peakAt i = highest es i
  le_peak : ∀ b ∈ s.hub.backends, b.allocatedBytes ≤ b.peakUsedBytes
  held_iff : ∀ p, .pool p ∈ s.hub.handles → ∀ i < (s.heap.pools p).capacity,
    ((s.heap.pools p).addr i ∈ s.held ↔ s.heap.isSet p i = true)

namespace HubState.Accounts

variable {T : Target} {assert : Bool} {s : HubState} {es : List HubEvent} {e : HubEvent}
  {before after : List FwMemBackend} {b b' : FwMemBackend} {size p i : Nat} {hints : UInt32}

theorem allocatedAt_le (h : s.Accounts T es) (i : Nat) : s.hub.allocatedAt i ≤ s.hub.peakAt i := by
  rw [FwMemHub.allocatedAt, FwMemHub.peakAt, List.getD_eq_getElem?_getD,
    List.getD_eq_getElem?_getD, List.getElem?_map, List.getElem?_map]
  cases hget : s.hub.backends[i]? with
  | none => exact Nat.le_refl 0
  | some b => exact h.le_peak b (List.mem_of_getElem? hget)

/-- A call that changes no counter. -/
theorem idle (h : s.Accounts T es) {heap : Heap} {hub : FwMemHub}
    (hbackends : hub.backends = s.hub.backends) (hevent : e.hub.backends = s.hub.backends)
    (hvalid : heap.Valid T s.hub.handles) (hpools : heap.pools = s.heap.pools)
    (harenas : heap.arenas = s.heap.arenas)
    (hset : ∀ p, .pool p ∈ s.hub.handles → ∀ i < (s.heap.pools p).capacity,
      heap.isSet p i = s.heap.isSet p i)
    (hcall : ∀ a, .arena a ∈ s.hub.handles →
      e.call.bytesIn (s.heap.extentOf (.arena a)) = 0) :
    HubState.Accounts T ⟨heap, hub, s.held⟩ (es ++ [e]) := by
  have hhandles : hub.handles = s.hub.handles := by
    rw [FwMemHub.handles, FwMemHub.handles, hbackends]
  have hextent : heap.extentOf = s.heap.extentOf := by
    funext handle
    cases handle with
    | pool p => rw [Heap.extentOf, Heap.extentOf, hpools]
    | arena a => rw [Heap.extentOf, Heap.extentOf, harenas]
  refine ⟨?_, ?_, ?_, ?_, ?_, ?_, ?_, ?_⟩
  · dsimp only
    rwa [hhandles]
  · dsimp only
    rw [hhandles]
    exact h.once
  · dsimp only
    rw [hhandles, hextent]
    exact h.apart
  · dsimp only
    rw [hbackends, hpools]
    exact h.pool
  · dsimp only
    rw [hbackends, hextent, harenas]
    intro b hb a ha
    rw [granted_concat, hcall a (ha ▸ List.mem_map_of_mem hb), Nat.add_zero]
    exact h.arena b hb a ha
  · intro i
    have hsame : e.hub.allocatedAt i = s.hub.allocatedAt i := by
      rw [FwMemHub.allocatedAt, hevent]
      rfl
    have hpeak : hub.peakAt i = s.hub.peakAt i := by
      rw [FwMemHub.peakAt, hbackends]
      rfl
    dsimp only
    rw [hpeak, highest_concat, hsame, ← h.peak i, Nat.max_eq_left (h.allocatedAt_le i)]
  · dsimp only
    rw [hbackends]
    exact h.le_peak
  · dsimp only
    rw [hhandles, hpools]
    intro p hp i hi
    rw [hset p hp i hi]
    exact h.held_iff p hp i hi

/-- A call that replaces one backend. -/
theorem replace (h : s.Accounts T es) {heap : Heap} {hub : FwMemHub} {held : List Nat}
    (hs : s.hub.backends = before ++ b :: after) (hbackends : hub.backends = before ++ b' :: after)
    (hevent : e.hub = hub) (hhandle : b'.handle = b.handle)
    (hvalid : heap.Valid T s.hub.handles) (hlayout : s.heap.SameLayout heap)
    (hothers : ∀ p, FwMemHandle.pool p ≠ b.handle → heap.pools p = s.heap.pools p)
    (harenas : ∀ a, FwMemHandle.arena a ≠ b.handle → heap.arenas a = s.heap.arenas a)
    (hcall : ∀ a, .arena a ∈ s.hub.handles → FwMemHandle.arena a ≠ b.handle →
      e.call.bytesIn (s.heap.extentOf (.arena a)) = 0)
    (hpool : ∀ p, b.handle = .pool p → b'.allocatedBytes = (s.heap.pools p).blockSize *
      ((s.heap.pools p).capacity - (heap.pools p).freeCount))
    (harena : ∀ a, b.handle = .arena a → b'.allocatedBytes =
      granted es (s.heap.extentOf (.arena a)) + e.call.bytesIn (s.heap.extentOf (.arena a)) ∧
        b'.allocatedBytes ≤ (heap.arenas a).offset)
    (hpeak : b'.peakUsedBytes = max b.peakUsedBytes b'.allocatedBytes)
    (hheld : ∀ p, .pool p ∈ s.hub.handles → ∀ i < (s.heap.pools p).capacity,
      ((s.heap.pools p).addr i ∈ held ↔ heap.isSet p i = true)) :
    HubState.Accounts T ⟨heap, hub, held⟩ (es ++ [e]) := by
  have hhandles : hub.handles = s.hub.handles := by
    rw [FwMemHub.handles, FwMemHub.handles, hbackends, hs, List.map_append, List.map_append,
      List.map_cons, List.map_cons, hhandle]
  have hextent : heap.extentOf = s.heap.extentOf := funext hlayout.extentOf
  have hb : b ∈ s.hub.backends := by
    rw [hs]
    exact List.mem_append_right _ List.mem_cons_self
  have hmem : ∀ c ∈ hub.backends, c = b' ∨ (c ∈ s.hub.backends ∧ c.handle ≠ b.handle) := by
    have honce := h.once
    rw [FwMemHub.handles, hs] at honce
    rw [hbackends, hs]
    exact fun c hc => mem_replace honce hc
  refine ⟨?_, ?_, ?_, ?_, ?_, ?_, ?_, ?_⟩
  · dsimp only
    rwa [hhandles]
  · dsimp only
    rw [hhandles]
    exact h.once
  · dsimp only
    rw [hhandles, hextent]
    exact h.apart
  · intro c hc p hp
    dsimp only at hc ⊢
    rw [hlayout.blockSize, hlayout.capacity]
    rcases hmem c hc with rfl | ⟨hc, hne⟩
    · exact hpool p (hhandle ▸ hp)
    · rw [hothers p (hp ▸ hne)]
      exact h.pool c hc p hp
  · intro c hc a ha
    dsimp only at hc ⊢
    rw [hextent, granted_concat]
    rcases hmem c hc with rfl | ⟨hc, hne⟩
    · exact harena a (hhandle ▸ ha)
    · rw [harenas a (ha ▸ hne), hcall a (ha ▸ List.mem_map_of_mem hc) (ha ▸ hne), Nat.add_zero]
      exact h.arena c hc a ha
  · intro i
    have hle := h.allocatedAt_le i
    have hold : s.hub.peakAt before.length = b.peakUsedBytes := by
      rw [FwMemHub.peakAt, hs, getD_replace (b := b), if_pos rfl]
    have hcolumn (f : FwMemBackend → Nat) : (hub.backends.map f).getD i 0 =
        if i = before.length then f b' else (s.hub.backends.map f).getD i 0 := by
      rw [hbackends, hs]
      exact getD_replace f i
    dsimp only
    rw [highest_concat, hevent, ← h.peak i, FwMemHub.peakAt, FwMemHub.allocatedAt, hcolumn, hcolumn]
    split
    · next hi => rw [hi, hold, hpeak]
    · exact (Nat.max_eq_left hle).symm
  · intro c hc
    dsimp only at hc
    rcases hmem c hc with rfl | ⟨hc, -⟩
    · rw [hpeak]
      exact Nat.le_max_right _ _
    · exact h.le_peak c hc
  · intro p hp i hi
    dsimp only at hp hi ⊢
    rw [hhandles] at hp
    rw [hlayout.capacity] at hi
    rw [hlayout.addr]
    exact hheld p hp i hi

/-- The server of a request counts what it has granted. -/
theorem served (h : s.Accounts T es) {held : List Nat} {call : HubCall}
    (hserver : s.hub.server T s.heap size hints = some (before, b, after))
    (hcall : call = .alloc size hints (fwMemHubAlloc T s.heap s.hub size hints).1)
    (hheld : held = (fwMemHubAlloc T s.heap s.hub size hints).1 :: s.held) :
    HubState.Accounts T ⟨(fwMemHubAlloc T s.heap s.hub size hints).2.1,
      (fwMemHubAlloc T s.heap s.hub size hints).2.2, held⟩
      (es ++ [⟨call, (fwMemHubAlloc T s.heap s.hub size hints).2.2⟩]) := by
  obtain ⟨hptr, hheap, hbackends⟩ := fwMemHubAlloc_some h.valid hserver
  obtain ⟨hsize, hs, hb, haccepts⟩ := FwMemHub.server_some hserver
  obtain ⟨hlayout, hinside, -⟩ := h.valid.serve_spec hb hsize haccepts
  have hmem : b ∈ s.hub.backends := by
    rw [hs]
    exact List.mem_append_right _ List.mem_cons_self
  rw [hheap]
  apply h.replace hs hbackends rfl rfl (h.valid.serve_accepted hb haccepts).2 hlayout
  · intro p hne
    cases hhandle : b.handle with
    | pool q =>
        rw [hhandle] at hne
        exact Function.update_of_ne (fun heq => hne (congrArg _ heq)) _ _
    | arena a => rfl
  · intro a hne
    cases hhandle : b.handle with
    | pool q => rfl
    | arena c =>
        rw [hhandle] at hne
        exact Function.update_of_ne (fun heq => hne (congrArg _ heq)) _ _
  · intro a ha hne
    have hother := h.apart _ ha _ hb hne
    rw [hcall, hptr]
    apply if_neg
    rcases hother with hother | hother <;> omega
  · intro p hp
    have hb' := hb
    rw [hp] at hb'
    obtain ⟨i, hi, next, count, -, hcount, halloc, -⟩ :=
      h.valid.serve_pool hb' (h.valid.freeBytes_pos hb' hp haccepts) size
    obtain ⟨free, hfree⟩ := h.valid.pool p hb'
    have hend := hfree.layout.storage_end
    have hle := hfree.length_le
    rw [← hfree.count, hcount] at hle
    have hold := h.pool b hmem p hp
    have hsum : b.allocatedBytes + (s.heap.pools p).blockSize =
        (s.heap.pools p).blockSize * ((s.heap.pools p).capacity - count) := by
      rw [hold, hcount, ← Nat.mul_succ]
      congr 1
      omega
    have hbound : (s.heap.pools p).blockSize * ((s.heap.pools p).capacity - count) ≤
        (s.heap.pools p).capacity * (s.heap.pools p).blockSize := by
      rw [Nat.mul_comm]
      exact Nat.mul_le_mul_right _ (Nat.sub_le _ _)
    rw [hp, Heap.serve, halloc, FwMemBackend.grant, Heap.counted]
    dsimp only
    rw [Function.update_self, hsum]
    exact Nat.mod_eq_of_lt (by omega)
  · intro a ha
    have hb' := hb
    rw [ha] at hb'
    have harena := h.valid.arena a hb'
    have hend := harena.buffer_end
    have hle := harena.offset_le
    have hroom : (s.heap.arenas a).padding T 4 + size ≤
        (s.heap.arenas a).capacity - (s.heap.arenas a).offset := by
      rw [Heap.accepts, ha] at haccepts
      exact (of_decide_eq_true haccepts).2
    obtain ⟨hold, hoffset⟩ := h.arena b hmem a ha
    have hsum : (b.grant T (s.heap.counted size (.arena a))).allocatedBytes =
        b.allocatedBytes + size := Nat.mod_eq_of_lt (by
      change b.allocatedBytes + size < T.sizeMod
      omega)
    have hbytes : call.bytesIn (s.heap.extentOf (.arena a)) = size := by
      rw [hcall, hptr]
      rw [ha] at hinside ⊢
      exact if_pos hinside
    rw [ha, hsum, hbytes, hold, Heap.serve]
    dsimp only
    rw [Function.update_self, FwArena.bumped]
    refine ⟨rfl, ?_⟩
    dsimp only
    omega
  · rw [FwMemBackend.grant]
    dsimp only
    rw [max_def_lt]
  · intro p hp i hi
    rw [hheld, hptr, h.valid.serve_isSet hb hsize h.apart haccepts hp hi, Bool.or_eq_true,
      decide_eq_true_eq, List.mem_cons, h.held_iff p hp i hi,
      @eq_comm _ _ ((s.heap.pools p).addr i)]

/-- The pool of a freed block uncounts it. -/
theorem released (h : s.Accounts T es) (hs : s.hub.backends = before ++ b :: after)
    (hhandle : b.handle = .pool p) (hi : i < (s.heap.pools p).capacity)
    (hset : s.heap.isSet p i = true)
    (hvalid : (s.heap.release T assert p i).Valid T s.hub.handles) {hub : FwMemHub}
    (hbackends : hub.backends = before ++ s.heap.unrecorded b p :: after) (ptr : Nat)
    (status : FwStatus) :
    HubState.Accounts T ⟨s.heap.release T assert p i, hub,
      s.held.filter (· ≠ (s.heap.pools p).addr i)⟩ (es ++ [⟨.free ptr status, hub⟩]) := by
  have hmem : b ∈ s.hub.backends := by
    rw [hs]
    exact List.mem_append_right _ List.mem_cons_self
  have hp : .pool p ∈ s.hub.handles := hhandle ▸ List.mem_map_of_mem hmem
  obtain ⟨free, hfree⟩ := h.valid.pool p hp
  have hcount : (s.heap.pools p).freeCount + 1 ≤ (s.heap.pools p).capacity := by
    have hnotin : i ∉ free := (hfree.bits i hi).mp hset
    have hle := (hfree.free_ok assert hi hnotin).2.length_le
    rw [hfree.count]
    exact hle
  have hold := h.pool b hmem p hhandle
  have hblock : (s.heap.pools p).blockSize ≤ b.allocatedBytes := by
    rw [hold]
    exact Nat.le_mul_of_pos_right _ (by omega)
  have hunrecorded : s.heap.unrecorded b p =
      { b with allocatedBytes := b.allocatedBytes - (s.heap.pools p).blockSize } := if_pos hblock
  have hle := h.le_peak b hmem
  apply h.replace hs hbackends rfl (by rw [hunrecorded]) hvalid Heap.sameLayout_update
  · intro q hne
    rw [hhandle] at hne
    exact Function.update_of_ne (fun heq => hne (congrArg _ heq)) _ _
  · exact fun _ _ => rfl
  · exact fun _ _ _ => rfl
  · intro q hq
    rw [hhandle] at hq
    cases hq
    rw [hunrecorded, Heap.release]
    dsimp only
    rw [Function.update_self, hold]
    dsimp only
    rw [← Nat.mul_pred]
    congr 1
  · intro a ha
    rw [hhandle] at ha
    cases ha
  · rw [hunrecorded]
    dsimp only
    omega
  · intro q hq j hj
    rw [h.valid.release_isSet assert hp h.apart hi hset hq hj, Bool.and_eq_true,
      Bool.not_eq_true', decide_eq_false_iff_not, List.mem_filter, h.held_iff q hq j hj,
      decide_eq_true_eq, and_comm, ne_comm]

/-- Pools and arenas end in front of the end of the address space. -/
theorem extent_end (h : s.Accounts T es) {handle : FwMemHandle} (hh : handle ∈ s.hub.handles) :
    (s.heap.extentOf handle).1 + (s.heap.extentOf handle).2 ≤ T.sizeMod - 1 := by
  cases handle with
  | pool p =>
      obtain ⟨free, hfree⟩ := h.valid.pool p hh
      have hend := hfree.layout.extent_end
      have hlt := hfree.layout.storage_end
      rw [Heap.extentOf, hend]
      omega
  | arena a =>
      have hlt := (h.valid.arena a hh).buffer_end
      rw [Heap.extentOf]
      dsimp only
      omega

/-- No more than its memory is allocated from a backend. -/
theorem allocated_le (h : s.Accounts T es) (hb : b ∈ s.hub.backends) :
    b.allocatedBytes ≤ (s.heap.extentOf b.handle).2 := by
  have hh : b.handle ∈ s.hub.handles := List.mem_map_of_mem hb
  cases hhandle : b.handle with
  | pool p =>
      rw [hhandle] at hh
      obtain ⟨free, hfree⟩ := h.valid.pool p hh
      have hle := hfree.layout.bitmap_le
      have hbound : (s.heap.pools p).blockSize *
          ((s.heap.pools p).capacity - (s.heap.pools p).freeCount) ≤
            (s.heap.pools p).capacity * (s.heap.pools p).blockSize := by
        rw [Nat.mul_comm]
        exact Nat.mul_le_mul_right _ (Nat.sub_le _ _)
      rw [h.pool b hb p hhandle, Heap.extentOf, FwPool.extent]
      dsimp only
      omega
  | arena a =>
      rw [hhandle] at hh
      exact Nat.le_trans (h.arena b hb a hhandle).2 (h.valid.arena a hh).offset_le

theorem total_lt (h : s.Accounts T es) :
    (s.hub.backends.map (·.allocatedBytes)).sum < T.sizeMod := by
  have hapart : (s.hub.handles.map s.heap.extentOf).Pairwise Apart := by
    rw [List.pairwise_map]
    exact List.Pairwise.imp_of_mem (fun hx hy hne => h.apart _ hx _ hy hne) h.once
  have hend : ∀ region ∈ s.hub.handles.map s.heap.extentOf,
      region.1 + region.2 ≤ T.sizeMod - 1 := by
    intro region hregion
    obtain ⟨handle, hh, rfl⟩ := List.mem_map.mp hregion
    exact h.extent_end hh
  have hlength := sum_length_le hapart (fun _ _ => Nat.zero_le _) hend
  rw [FwMemHub.handles, List.map_map, List.map_map] at hlength
  have hpos := T.sizeMod_ge
  calc (s.hub.backends.map (·.allocatedBytes)).sum
      ≤ (s.hub.backends.map fun b => (s.heap.extentOf b.handle).2).sum :=
        List.sum_le_sum fun b hb => h.allocated_le hb
    _ ≤ T.sizeMod - 1 - 0 := hlength
    _ < T.sizeMod := by omega

end HubState.Accounts

/-- The sum of the backends, as long as it does not wrap around. -/
theorem foldl_used {T : Target} {bs : List FwMemBackend} {used : Nat}
    (h : used + (bs.map (·.allocatedBytes)).sum < T.sizeMod) :
    bs.foldl (fun used b => T.size (used + b.allocatedBytes)) used =
      used + (bs.map (·.allocatedBytes)).sum := by
  induction bs generalizing used with
  | nil => rfl
  | cons b bs ih =>
      rw [List.map_cons, List.sum_cons] at h ⊢
      have hsize : T.size (used + b.allocatedBytes) = used + b.allocatedBytes :=
        Nat.mod_eq_of_lt (by omega)
      rw [List.foldl_cons, hsize, ih (by omega), Nat.add_assoc]

/-- Every step keeps the accounts. -/
theorem HubStep.accounts {T : Target} {assert : Bool} {s s' : HubState} {e : HubEvent}
    {es : List HubEvent} (hstep : HubStep T assert s e s') (h : s.Accounts T es) :
    s'.Accounts T (es ++ [e]) := by
  cases hstep with
  | alloc size hints =>
      cases hserver : s.hub.server T s.heap size hints with
      | none =>
          obtain ⟨hptr, hheap, hbackends⟩ := fwMemHubAlloc_none h.valid hserver
          rw [hptr, if_pos rfl, hheap]
          apply h.idle hbackends hbackends h.valid rfl rfl fun _ _ _ _ => rfl
          intro a ha
          have hpos := (h.valid.arena a ha).buffer_pos
          exact if_neg fun hin => absurd hin.1 (Nat.not_le.mpr hpos)
      | some r =>
          obtain ⟨before, b, after⟩ := r
          obtain ⟨-, -, hb, haccepts⟩ := FwMemHub.server_some hserver
          have hnull := (h.valid.serve_accepted hb haccepts).1
          rw [← (fwMemHubAlloc_some h.valid hserver).1] at hnull
          exact h.served hserver rfl (if_neg hnull)
  | free ptr =>
      rcases fwMemHubFree_cases assert h.valid ptr with
        ⟨-, status, hstatus, heq⟩ |
        ⟨before, b, after, p, i, hs, hhandle, hi, rfl, hset, heq, hvalid⟩
      · rw [heq]
        dsimp only
        rw [if_neg hstatus]
        exact h.idle rfl rfl h.valid rfl rfl (fun _ _ _ _ => rfl) fun _ _ => rfl
      · rw [heq]
        dsimp only
        rw [if_pos rfl]
        exact h.released hs hhandle hi hset hvalid rfl _ _
  | write mem hwrites =>
      have hstep : HubStep T assert s _ { s with heap := { s.heap with mem := mem } } :=
        HubStep.write s mem hwrites
      apply h.idle rfl rfl (hstep.valid h.valid).1 rfl rfl ?_ fun _ _ => rfl
      intro p hp i hi
      obtain ⟨free, hfree⟩ := h.valid.pool p hp
      have hword := hfree.layout.word_end hi
      rw [Heap.isSet, Heap.isSet, ByteMemory.bitAt, ByteMemory.bitAt,
        ByteMemory.AgreeOn.loadWord_eq]
      exact ((hwrites p hp).1.mono (Nat.le_add_right _ _) hword).symm

/-- Registration starts the counters at zero. -/
theorem registered_counters {handles : List FwMemHandle} {hub : FwMemHub}
    (hrun : Run RegisterStep fwMemHubInit handles hub) :
    ∀ b ∈ hub.backends, b.allocatedBytes = 0 ∧ b.peakUsedBytes = 0 := by
  apply hrun.invariant (fun hub _ => ∀ b ∈ hub.backends, b.allocatedBytes = 0 ∧ b.peakUsedBytes = 0)
    (fun b hb => absurd hb List.not_mem_nil)
  have hregister : ∀ (hub hub' : FwMemHub) (tier object : Nat) (handle : FwMemHandle)
      (name : String) (reserveBytes : Nat),
      (∀ b ∈ hub.backends, b.allocatedBytes = 0 ∧ b.peakUsedBytes = 0) →
      hub.register tier object handle name reserveBytes = (.ok, hub') →
      ∀ b ∈ hub'.backends, b.allocatedBytes = 0 ∧ b.peakUsedBytes = 0 := by
    intro hub hub' tier object handle name reserveBytes h heq
    rw [FwMemHub.register] at heq
    split at heq
    · cases heq
    split at heq
    · cases heq
    cases heq
    intro b hb
    rcases List.mem_append.mp hb with hb | hb
    · exact h b hb
    · rw [List.mem_singleton.mp hb]
      exact ⟨rfl, rfl⟩
  intro hub _ handle hub' h hstep
  cases hstep with
  | pool heq => exact hregister _ _ _ _ _ _ _ h heq
  | arena heq => exact hregister _ _ _ _ _ _ _ h heq

/-- An initialised pool in its buffer. -/
theorem FreshHub.pool_spec {T : Target} {buffer : FwMemHandle → Nat × Nat} {s : HubState}
    (h : FreshHub T buffer s) {p : Nat} (hp : .pool p ∈ s.hub.handles) :
    (s.heap.pools p).Represents T s.heap.mem (List.range (s.heap.pools p).capacity) ∧
      0 < (s.heap.pools p).capacity ∧ (buffer (.pool p)).1 ≤ (s.heap.extentOf (.pool p)).1 ∧
      (s.heap.extentOf (.pool p)).1 + (s.heap.extentOf (.pool p)).2 ≤
        (buffer (.pool p)).1 + (buffer (.pool p)).2 := by
  obtain ⟨m, m', blockSize, alignment, hblock, halign, hinit, hagree⟩ := h.pool p hp
  obtain ⟨hrepresents, hpos, hlow, hhigh, -⟩ :=
    fwPoolInit_represents (h.object _ hp) hblock halign hinit
  have hend := hrepresents.layout.extent_end
  have hle := hrepresents.layout.bitmap_le
  refine ⟨hrepresents.congr ?_ ?_, hpos, hlow, ?_⟩
  · apply hagree.mono hlow
    exact Nat.le_trans (Nat.le_add_right _ _) hhigh
  · intro i hi
    have hblockEnd := FwPool.addr_end (List.mem_range.mp hi)
    apply hagree.mono
    · exact Nat.le_trans hlow (Nat.le_trans hle (Nat.le_add_right _ _))
    · exact Nat.le_trans hblockEnd hhigh
  · rw [Heap.extentOf, hend]
    exact hhigh

/-- Every backend lies in its buffer. -/
theorem FreshHub.extent_inside {T : Target} {buffer : FwMemHandle → Nat × Nat} {s : HubState}
    (h : FreshHub T buffer s) {handle : FwMemHandle} (hh : handle ∈ s.hub.handles) :
    (buffer handle).1 ≤ (s.heap.extentOf handle).1 ∧
      (s.heap.extentOf handle).1 + (s.heap.extentOf handle).2 ≤
        (buffer handle).1 + (buffer handle).2 := by
  cases handle with
  | pool p => exact (h.pool_spec hh).2.2
  | arena a =>
      have harena := (FwArena.init_valid (h.object _ hh) (h.arena a hh)).1
      rw [Heap.extentOf, harena]
      exact ⟨Nat.le_refl _, Nat.le_refl _⟩

/-- A fresh hub has allocated nothing. -/
theorem FreshHub.accounts {T : Target} {buffer : FwMemHandle → Nat × Nat} {s : HubState}
    (h : FreshHub T buffer s) : s.Accounts T [] := by
  obtain ⟨handles, hrun⟩ := h.registered
  have hzero := registered_counters hrun
  have hapart : ∀ x ∈ s.hub.handles, ∀ y ∈ s.hub.handles, x ≠ y →
      Apart (s.heap.extentOf x) (s.heap.extentOf y) := by
    intro x hx y hy hne
    obtain ⟨hxlow, hxhigh⟩ := h.extent_inside hx
    obtain ⟨hylow, hyhigh⟩ := h.extent_inside hy
    exact (h.apart x hx y hy hne).mono hxlow hxhigh hylow hyhigh
  have hvalid : s.heap.Valid T s.hub.handles := by
    refine ⟨?_, ?_, ?_, ?_⟩
    · exact fun p hp => ⟨_, (h.pool_spec hp).1⟩
    · exact fun p hp => (h.pool_spec hp).2.1
    · exact fun a ha => (FwArena.init_valid (h.object _ ha) (h.arena a ha)).2
    · intro p q hp hq hne
      exact hapart _ hp _ hq fun heq => hne (FwMemHandle.pool.inj heq)
  refine ⟨hvalid, h.once, hapart, ?_, ?_, ?_, ?_, ?_⟩
  · intro b hb p hp
    have hcount := (h.pool_spec (hp ▸ List.mem_map_of_mem hb : .pool p ∈ s.hub.handles)).1.count
    rw [List.length_range] at hcount
    rw [(hzero b hb).1, hcount, Nat.sub_self, Nat.mul_zero]
  · intro b hb a ha
    rw [(hzero b hb).1]
    exact ⟨rfl, Nat.zero_le _⟩
  · intro i
    rw [FwMemHub.peakAt, List.getD_eq_getElem?_getD, List.getElem?_map]
    cases hget : s.hub.backends[i]? with
    | none => rfl
    | some b => exact (hzero b (List.mem_of_getElem? hget)).2
  · intro b hb
    rw [(hzero b hb).1]
    exact Nat.zero_le _
  · intro p hp i hi
    rw [h.held, Heap.isSet, (h.pool_spec hp).1.bits i hi]
    exact iff_of_false List.not_mem_nil (not_not.mpr (List.mem_range.mpr hi))

/-- Only the pool of a freed block and its backend change. -/
structure HubState.OnlyChanges (s s' : HubState) (handle : FwMemHandle) : Prop where
  backends : ∃ before b b' after, b.handle = handle ∧ s.hub.backends = before ++ b :: after ∧
    s'.hub.backends = before ++ b' :: after
  pools : ∀ p, FwMemHandle.pool p ≠ handle → s'.heap.pools p = s.heap.pools p
  arenas : s'.heap.arenas = s.heap.arenas
  mem : ∀ x, (x < (s.heap.extentOf handle).1 ∨
    (s.heap.extentOf handle).1 + (s.heap.extentOf handle).2 ≤ x) → s'.heap.mem x = s.heap.mem x

/-- What the counters say, and which addresses `fw_mem_hub_free` accepts. -/
structure HubState.Correct (T : Target) (assert : Bool) (s : HubState) (es : List HubEvent) :
    Prop where
  pool : ∀ b ∈ s.hub.backends, ∀ p, b.handle = .pool p →
    (s.heap.pools p).freeCount ≤ (s.heap.pools p).capacity ∧
      b.allocatedBytes = (s.heap.pools p).blockSize *
        ((s.heap.pools p).capacity - (s.heap.pools p).freeCount)
  arena : ∀ b ∈ s.hub.backends, ∀ a, b.handle = .arena a →
    b.allocatedBytes = granted es (s.heap.extentOf (.arena a))
  total : fwMemHubGetTotalUsed T s.hub = (s.hub.backends.map (·.allocatedBytes)).sum
  peak : ∀ i, s.hub.peakAt i = highest es i
  free_ok : ∀ ptr, (fwMemHubFree T assert s.heap s.hub ptr).1 = .ok ↔
    ptr ∈ s.held ∧ ∃ p, .pool p ∈ s.hub.handles ∧ ∃ i < (s.heap.pools p).capacity,
      ptr = (s.heap.pools p).addr i
  free_only : ∀ p, .pool p ∈ s.hub.handles → ∀ i < (s.heap.pools p).capacity,
    (s.heap.pools p).addr i ∈ s.held →
      s.OnlyChanges ⟨(fwMemHubFree T assert s.heap s.hub ((s.heap.pools p).addr i)).2.1,
        (fwMemHubFree T assert s.heap s.hub ((s.heap.pools p).addr i)).2.2, s.held⟩ (.pool p)
  free_rejected : ∀ ptr, (fwMemHubFree T assert s.heap s.hub ptr).1 ≠ .ok →
    (fwMemHubFree T assert s.heap s.hub ptr).2 = (s.heap, s.hub)

/-- Two blocks at one address are blocks of one pool. -/
theorem HubState.Accounts.pool_unique {T : Target} {s : HubState} {es : List HubEvent}
    (h : s.Accounts T es) {p q i j : Nat} (hp : .pool p ∈ s.hub.handles)
    (hq : .pool q ∈ s.hub.handles) (hi : i < (s.heap.pools p).capacity)
    (hj : j < (s.heap.pools q).capacity)
    (heq : (s.heap.pools p).addr i = (s.heap.pools q).addr j) : p = q := by
  by_contra hne
  have haddr := h.valid.addr_inside hp hi
  have haddr' := h.valid.addr_inside hq hj
  have hapart := h.apart _ hp _ hq fun hsame => hne (FwMemHandle.pool.inj hsame)
  rcases hapart with hapart | hapart <;> omega

theorem HubState.Accounts.correct {T : Target} {s : HubState} {es : List HubEvent}
    (assert : Bool) (h : s.Accounts T es) : s.Correct T assert es where
  pool b hb p hp := by
    obtain ⟨free, hfree⟩ := h.valid.pool p (hp ▸ List.mem_map_of_mem hb)
    refine ⟨?_, h.pool b hb p hp⟩
    rw [hfree.count]
    exact hfree.length_le
  arena b hb a ha := (h.arena b hb a ha).1
  total := by
    have hlt := h.total_lt
    rw [fwMemHubGetTotalUsed, foldl_used (by rwa [Nat.zero_add]), Nat.zero_add]
  peak := h.peak
  free_ok ptr := by
    rcases fwMemHubFree_cases assert h.valid ptr with
      ⟨hno, status, hstatus, heq⟩ |
      ⟨before, b, after, p, i, hs, hhandle, hi, rfl, hset, heq, -⟩
    · rw [heq]
      refine iff_of_false hstatus ?_
      rintro ⟨hheld, p, hp, i, hi, rfl⟩
      have hset := (h.held_iff p hp i hi).mp hheld
      rw [Heap.isSet, hno p hp i hi rfl] at hset
      exact Bool.false_ne_true hset
    · have hp : .pool p ∈ s.hub.handles := by
        rw [← hhandle, FwMemHub.handles, hs]
        exact List.mem_map_of_mem (List.mem_append_right _ List.mem_cons_self)
      rw [heq]
      exact iff_of_true rfl ⟨(h.held_iff p hp i hi).mpr hset, p, hp, i, hi, rfl⟩
  free_only p hp i hi hheld := by
    have hset := (h.held_iff p hp i hi).mp hheld
    rcases fwMemHubFree_cases assert h.valid ((s.heap.pools p).addr i) with
      ⟨hno, -⟩ | ⟨before, b, after, q, j, hs, hhandle, hj, haddr, -, heq, -⟩
    · rw [Heap.isSet, hno p hp i hi rfl] at hset
      exact absurd hset Bool.false_ne_true
    · have hq : .pool q ∈ s.hub.handles := by
        rw [← hhandle, FwMemHub.handles, hs]
        exact List.mem_map_of_mem (List.mem_append_right _ List.mem_cons_self)
      obtain rfl := h.pool_unique hp hq hi hj haddr
      rw [heq]
      refine ⟨⟨before, b, _, after, hhandle, hs, rfl⟩, ?_, rfl, ?_⟩
      · intro q hne
        exact Function.update_of_ne (fun hsame => hne (congrArg _ hsame)) _ _
      · exact fun x hx => h.valid.release_outside assert hp hj hx
  free_rejected ptr hrejected := by
    rcases fwMemHubFree_cases assert h.valid ptr with
      ⟨-, status, -, heq⟩ | ⟨before, b, after, p, i, -, -, -, -, -, heq, -⟩
    · rw [heq]
    · rw [heq] at hrejected
      exact absurd rfl hrejected

/-- Over freshly initialised pools and arenas in separate buffers the counters of the hub are
correct along every run. -/
theorem fwMemHub_accounts {T : Target} {assert : Bool} {buffer : FwMemHandle → Nat × Nat}
    {s₀ s : HubState} {es : List HubEvent} (hfresh : FreshHub T buffer s₀)
    (hrun : Run (HubStep T assert) s₀ es s) : s.Correct T assert es := by
  have haccounts : s.Accounts T es :=
    hrun.invariant (fun t es => t.Accounts T es) hfresh.accounts
      fun _ _ _ _ h hstep => hstep.accounts h
  exact haccounts.correct assert

/-- A hub over `samplePool` at handle 1 and an arena of 512 bytes at handle 2. -/
def sampleAccounts : HubState :=
  { heap := ⟨sampleMemory, fun _ => samplePool, fun _ => ⟨4096, 512, 0, 0⟩⟩
    hub := ⟨[⟨"fast_sram", fwMemTierFast, .pool 1, 8, 0, 0⟩,
      ⟨"bulk_sdram", fwMemTierBulk, .arena 2, 128, 0, 0⟩], 0, 0⟩
    held := [] }

/-- The buffers of the pool and the arena. -/
def sampleBuffers : FwMemHandle → Nat × Nat
  | .pool _ => (16, 32)
  | .arena _ => (4096, 512)

theorem sampleAccounts_fresh : FreshHub ⟨4, Or.inl rfl⟩ sampleBuffers sampleAccounts where
  registered := by
    have hpool : fwMemHubRegisterPool fwMemHubInit fwMemTierFast 1 (some "fast_sram") 8 =
        (.ok, ⟨[⟨"fast_sram", fwMemTierFast, .pool 1, 8, 0, 0⟩], 0, 0⟩) := rfl
    have harena : fwMemHubRegisterArena ⟨[⟨"fast_sram", fwMemTierFast, .pool 1, 8, 0, 0⟩], 0, 0⟩
        fwMemTierBulk 2 (some "bulk_sdram") 128 = (.ok, sampleAccounts.hub) := rfl
    exact ⟨_, (Run.single (RegisterStep.pool hpool)).snoc (RegisterStep.arena harena)⟩
  once := by decide
  apart := by
    intro x hx y hy hne
    have hcases : ∀ h ∈ sampleAccounts.hub.handles, h = .pool 1 ∨ h = .arena 2 := by decide
    rcases hcases x hx with rfl | rfl <;> rcases hcases y hy with rfl | rfl
    · exact absurd rfl hne
    · exact Or.inl (by decide)
    · exact Or.inr (by decide)
    · exact absurd rfl hne
  object := by decide
  pool _ _ :=
    ⟨fun _ => 0, sampleMemory, 8, 4, by decide, by decide, samplePool_init, fun _ _ _ => rfl⟩
  arena a _ := rfl
  held := rfl

theorem fwMemHub_accounts_sample :
    ∃ (s : HubState) (es : List HubEvent), s.held = [20] ∧ s.hub.allocatedAt 0 = 8 ∧
      s.hub.peakAt 0 = 16 ∧ s.Correct ⟨4, Or.inl rfl⟩ true es := by
  have hfirst : Run (HubStep ⟨4, Or.inl rfl⟩ true) sampleAccounts _ _ :=
    Run.single (HubStep.alloc _ 5 fwMemHintFast)
  have hsecond := hfirst.snoc (HubStep.alloc _ 8 fwMemHintFast)
  have hthird := hsecond.snoc (HubStep.free _ 28)
  refine ⟨_, _, ?_, ?_, ?_, fwMemHub_accounts sampleAccounts_fresh hthird⟩
  · decide +kernel
  · decide +kernel
  · decide +kernel

end ZeroEmbedded.Memory
