import ZeroEmbedded.Memory.HubAccounting

/-!
# Isolation of the clients of the memory hub

The regions that were granted and not given back belong to the clients. They
lie in held blocks of pools and below the offsets of arenas, so that they are
apart from each other, and a call changes none of their bytes.
-/

namespace ZeroEmbedded.Memory

open Foundation Foundation.Intervals

/-- The regions of the clients behind a call. -/
def HubCall.regions (before : List (Nat × Nat)) : HubCall → List (Nat × Nat)
  | .alloc size _ ptr => if ptr = fwNull then before else (ptr, size) :: before
  | .free ptr status => if status = .ok then before.filter (·.1 ≠ ptr) else before
  | .write => before

/-- The regions that were granted and not given back. -/
def clientRegions (es : List HubEvent) : List (Nat × Nat) :=
  es.foldl (fun before e => e.call.regions before) []

theorem clientRegions_concat (es : List HubEvent) (e : HubEvent) :
    clientRegions (es ++ [e]) = e.call.regions (clientRegions es) := by
  rw [clientRegions, List.foldl_append]
  rfl

/-- A region in a held block of a pool, or in the used part of an arena. -/
def Heap.Placed (heap : Heap) (r : Nat × Nat) : FwMemHandle → Prop
  | .pool p => ∃ i < (heap.pools p).capacity, heap.isSet p i = true ∧
      r.1 = (heap.pools p).addr i ∧ r.2 ≤ (heap.pools p).blockSize
  | .arena a => (heap.arenas a).buffer ≤ r.1 ∧
      r.1 + r.2 ≤ (heap.arenas a).buffer + (heap.arenas a).offset

/-- The memories agree on a region. -/
def Untouched (region : Nat × Nat) (m m' : ByteMemory) : Prop :=
  ByteMemory.AgreeOn m m' region.1 (region.1 + region.2)

namespace Heap

variable {T : Target} {heap heap' : Heap} {handles : List FwMemHandle} {b : FwMemBackend}
  {handle other : FwMemHandle} {p q i j size x : Nat} {r : Nat × Nat}

/-- Every pool and arena lies apart from the others. -/
def ApartFrom (heap : Heap) (handles : List FwMemHandle) : Prop :=
  ∀ h ∈ handles, ∀ h' ∈ handles, h ≠ h' → Apart (heap.extentOf h) (heap.extentOf h')

namespace Valid

/-- A region lies inside of its pool or arena. -/
theorem placed_inside (h : heap.Valid T handles) (hh : handle ∈ handles)
    (hr : heap.Placed r handle) :
    (heap.extentOf handle).1 ≤ r.1 ∧
      r.1 + r.2 ≤ (heap.extentOf handle).1 + (heap.extentOf handle).2 := by
  cases handle with
  | pool p =>
      obtain ⟨i, hi, -, haddr, hsize⟩ := hr
      obtain ⟨free, hfree⟩ := h.pool p hh
      have hend := hfree.layout.extent_end
      have hblock := FwPool.addr_end hi
      have hinside := h.addr_inside hh hi
      rw [Heap.extentOf, hend, haddr]
      exact ⟨hinside.1, by omega⟩
  | arena a =>
      have hle := (h.arena a hh).offset_le
      rw [Heap.extentOf]
      exact ⟨hr.1, Nat.le_trans hr.2 (Nat.add_le_add_left hle _)⟩

/-- Regions in different pools or arenas are apart. -/
theorem placed_apart (h : heap.Valid T handles) (hapart : heap.ApartFrom handles)
    (hh : handle ∈ handles) (ho : other ∈ handles) (hne : handle ≠ other) {r' : Nat × Nat}
    (hr : heap.Placed r handle) (hr' : heap.Placed r' other) : Apart r r' := by
  obtain ⟨hlow, hhigh⟩ := h.placed_inside hh hr
  obtain ⟨hlow', hhigh'⟩ := h.placed_inside ho hr'
  exact (hapart _ hh _ ho hne).mono hlow hhigh hlow' hhigh'

/-- Bytes outside of one pool or arena that change nothing are not those of a region in another
one. -/
theorem untouched_of_outside (h : heap.Valid T handles) (hapart : heap.ApartFrom handles)
    (hh : handle ∈ handles) (ho : other ∈ handles) (hne : handle ≠ other)
    (hr : heap.Placed r handle) {mem : ByteMemory}
    (hmem : ∀ x, (x < (heap.extentOf other).1 ∨
      (heap.extentOf other).1 + (heap.extentOf other).2 ≤ x) → mem x = heap.mem x) :
    Untouched r heap.mem mem := by
  obtain ⟨hlow, hhigh⟩ := h.placed_inside hh hr
  intro x hx hx'
  refine (hmem x ?_).symm
  rcases hapart _ hh _ ho hne with hside | hside
  · exact Or.inl (by omega)
  · exact Or.inr (by omega)

/-- The granted region is placed in its backend. -/
theorem serve_placed (h : heap.Valid T handles) (hb : b.handle ∈ handles)
    (hapart : heap.ApartFrom handles) (hsize : size ≠ 0)
    (haccepts : heap.accepts T size b = true) :
    Placed (heap.serve T size b.handle).2 ((heap.serve T size b.handle).1, size) b.handle := by
  obtain ⟨hlayout, -, -⟩ := h.serve_spec hb hsize haccepts
  cases hhandle : b.handle with
  | pool p =>
      rw [hhandle] at hb hlayout
      obtain ⟨i, hi, next, count, -, -, halloc, -⟩ :=
        h.serve_pool hb (h.freeBytes_pos hb hhandle haccepts) size
      have hfits : size ≤ (heap.pools p).blockSize := by
        rw [accepts, hhandle] at haccepts
        exact (of_decide_eq_true haccepts).1
      have hset := h.serve_isSet (hhandle ▸ hb) hsize hapart haccepts hb hi
      have haddr : (heap.serve T size (.pool p)).1 = (heap.pools p).addr i := by
        rw [serve, halloc]
      rw [hhandle, haddr, decide_eq_true rfl, Bool.true_or] at hset
      refine ⟨i, ?_, hset, ?_, ?_⟩
      · rwa [hlayout.capacity]
      · rw [hlayout.addr]
        exact haddr
      · rwa [hlayout.blockSize]
  | arena a =>
      rw [serve, FwArena.bumped, Placed]
      dsimp only
      rw [Function.update_self]
      dsimp only
      omega

/-- Regions stay placed when a request is served, and lie apart from the granted region. -/
theorem serve_keeps (h : heap.Valid T handles) (hb : b.handle ∈ handles)
    (hapart : heap.ApartFrom handles) (hsize : size ≠ 0)
    (haccepts : heap.accepts T size b = true) (hh : handle ∈ handles)
    (hr : heap.Placed r handle) :
    (heap.serve T size b.handle).2.Placed r handle ∧
      Apart ((heap.serve T size b.handle).1, size) r := by
  obtain ⟨hlayout, -, -⟩ := h.serve_spec hb hsize haccepts
  have hvalid := (h.serve_accepted hb haccepts).2
  have hkept : (heap.serve T size b.handle).2.Placed r handle := by
    cases handle with
    | pool q =>
        obtain ⟨j, hj, hset, haddr, hle⟩ := hr
        refine ⟨j, ?_, ?_, ?_, ?_⟩
        · rwa [hlayout.capacity]
        · rw [h.serve_isSet hb hsize hapart haccepts hh hj, hset, Bool.or_true]
        · rwa [hlayout.addr]
        · rwa [hlayout.blockSize]
    | arena c =>
        obtain ⟨hlow, hhigh⟩ := hr
        cases hhandle : b.handle with
        | pool p => exact ⟨hlow, hhigh⟩
        | arena a =>
            rw [serve, FwArena.bumped, Placed]
            dsimp only
            by_cases heq : c = a
            · subst heq
              rw [Function.update_self]
              dsimp only
              omega
            · rw [Function.update_of_ne heq]
              exact ⟨hlow, hhigh⟩
  refine ⟨hkept, ?_⟩
  have hgranted := h.serve_placed hb hapart hsize haccepts
  have hapart' : (heap.serve T size b.handle).2.ApartFrom handles := by
    intro x hx y hy hne
    rw [hlayout.extentOf, hlayout.extentOf]
    exact hapart x hx y hy hne
  by_cases hne : b.handle = handle
  · subst hne
    cases hhandle : b.handle with
    | pool p =>
        -- the granted block was free, the block of the region is held
        rw [hhandle] at hb hr
        obtain ⟨i, hi, next, count, hbit, -, halloc, -⟩ :=
          h.serve_pool hb (h.freeBytes_pos hb hhandle haccepts) size
        obtain ⟨j, hj, hset, haddr, hle⟩ := hr
        have hfits : size ≤ (heap.pools p).blockSize := by
          rw [accepts, hhandle] at haccepts
          exact (of_decide_eq_true haccepts).1
        have hij : i ≠ j := by
          rintro rfl
          rw [isSet, hbit] at hset
          exact Bool.false_ne_true hset
        rw [serve, halloc, Apart]
        dsimp only
        rcases @FwPool.addr_disjoint (heap.pools p) _ _ hij with hside | hside
        · exact Or.inl (by omega)
        · exact Or.inr (by omega)
    | arena a =>
        rw [hhandle] at hr
        refine Or.inr (Nat.le_trans hr.2 ?_)
        rw [serve, FwArena.bumped]
        exact Nat.le_add_right _ _
  · exact hvalid.placed_apart hapart' hb hh hne hgranted hkept

/-- A request changes no byte of a region. -/
theorem serve_untouched (h : heap.Valid T handles) (hb : b.handle ∈ handles)
    (hapart : heap.ApartFrom handles) (hsize : size ≠ 0)
    (haccepts : heap.accepts T size b = true) (hh : handle ∈ handles)
    (hr : heap.Placed r handle) : Untouched r heap.mem (heap.serve T size b.handle).2.mem := by
  by_cases hne : handle = b.handle
  · subst hne
    cases hhandle : b.handle with
    | pool p =>
        rw [hhandle] at hb hr
        obtain ⟨i, hi, next, count, -, -, halloc, -⟩ :=
          h.serve_pool hb (h.freeBytes_pos hb hhandle haccepts) size
        obtain ⟨free, hfree⟩ := h.pool p hb
        obtain ⟨j, hj, -, haddr, -⟩ := hr
        have hword := hfree.layout.word_end hi
        have hstart : (heap.pools p).storage ≤ (heap.pools p).addr j := Nat.le_add_right _ _
        rw [serve, halloc]
        exact (ByteMemory.setBit_agreeOn (Or.inr (by omega))).symm
    | arena a => exact fun _ _ _ => rfl
  · exact h.untouched_of_outside hapart hh hb hne hr (h.serve_spec hb hsize haccepts).2.2

/-- A request changes no byte of the region it is granted. -/
theorem granted_untouched (h : heap.Valid T handles) (hb : b.handle ∈ handles)
    (haccepts : heap.accepts T size b = true) :
    Untouched ((heap.serve T size b.handle).1, size) heap.mem
      (heap.serve T size b.handle).2.mem := by
  cases hhandle : b.handle with
  | pool p =>
      rw [hhandle] at hb
      obtain ⟨i, hi, next, count, -, -, halloc, -⟩ :=
        h.serve_pool hb (h.freeBytes_pos hb hhandle haccepts) size
      obtain ⟨free, hfree⟩ := h.pool p hb
      have hword := hfree.layout.word_end hi
      have hstart : (heap.pools p).storage ≤ (heap.pools p).addr i := Nat.le_add_right _ _
      rw [serve, halloc]
      exact (ByteMemory.setBit_agreeOn (Or.inr (by omega))).symm
  | arena a => exact fun _ _ _ => rfl

/-- Freeing a block keeps the regions that do not start there, and changes none of their bytes. -/
theorem release_keeps (assert : Bool) (h : heap.Valid T handles) (hp : .pool p ∈ handles)
    (hapart : heap.ApartFrom handles) (hi : i < (heap.pools p).capacity)
    (hset : heap.isSet p i = true) (hh : handle ∈ handles) (hr : heap.Placed r handle)
    (hne : r.1 ≠ (heap.pools p).addr i) :
    (heap.release T assert p i).Placed r handle ∧
      Untouched r heap.mem (heap.release T assert p i).mem := by
  have hlayout : heap.SameLayout (heap.release T assert p i) := sameLayout_update
  constructor
  · cases handle with
    | pool q =>
        obtain ⟨j, hj, hheld, haddr, hle⟩ := hr
        refine ⟨j, ?_, ?_, ?_, ?_⟩
        · rwa [hlayout.capacity]
        · rw [h.release_isSet assert hp hapart hi hset hh hj, hheld, Bool.and_true,
            ← haddr, decide_eq_false (Ne.symm hne), Bool.not_false]
        · rwa [hlayout.addr]
        · rwa [hlayout.blockSize]
    | arena a => exact hr
  · by_cases hother : handle = .pool p
    · subst hother
      obtain ⟨j, hj, -, haddr, hle⟩ := hr
      obtain ⟨free, hfree⟩ := h.pool p hp
      have hij : i ≠ j := by
        rintro rfl
        exact hne haddr
      have hword := hfree.layout.word_end hi
      have hstart : (heap.pools p).storage ≤ (heap.pools p).addr j := Nat.le_add_right _ _
      intro x hx hx'
      have hblock : x < (heap.pools p).addr i ∨
          (heap.pools p).addr i + (heap.pools p).blockSize ≤ x := by
        rcases @FwPool.addr_disjoint (heap.pools p) _ _ hij with hside | hside
        · exact Or.inr (by omega)
        · exact Or.inl (by omega)
      rw [release]
      dsimp only
      rw [hfree.freed_outside hblock]
      exact ((ByteMemory.clearBit_agreeOn (Or.inr (by omega))).symm) x hx hx'
    · exact h.untouched_of_outside hapart hh hp hother hr fun x hx =>
        h.release_outside assert hp hi hx

end Valid

end Heap

/-- Writes of the clients set and clear no bit. -/
theorem Heap.ClientWrites.isSet {T : Target} {heap : Heap} {handles : List FwMemHandle}
    {mem : ByteMemory} (hwrites : heap.ClientWrites handles mem) (h : heap.Valid T handles)
    {p i : Nat} (hp : .pool p ∈ handles) (hi : i < (heap.pools p).capacity) :
    Heap.isSet { heap with mem := mem } p i = heap.isSet p i := by
  obtain ⟨free, hfree⟩ := h.pool p hp
  have hword := hfree.layout.word_end hi
  rw [Heap.isSet, Heap.isSet, ByteMemory.bitAt, ByteMemory.bitAt, ByteMemory.AgreeOn.loadWord_eq]
  exact ((hwrites p hp).1.mono (Nat.le_add_right _ _) hword).symm

/-- The regions of the clients are placed and apart, in pools and arenas with the extents
`extent`. -/
structure HubState.Isolated (T : Target) (extent : FwMemHandle → Nat × Nat) (s : HubState)
    (es : List HubEvent) : Prop where
  accounts : s.Accounts T es
  extent_eq : s.heap.extentOf = extent
  placed : ∀ r ∈ clientRegions es, ∃ handle ∈ s.hub.handles, s.heap.Placed r handle
  positive : ∀ r ∈ clientRegions es, 0 < r.2
  apart : (clientRegions es).Pairwise Apart

section Steps

variable {T : Target} {assert : Bool} {extent : FwMemHandle → Nat × Nat} {s s' : HubState}
  {es : List HubEvent} {e : HubEvent}

namespace HubState.Isolated

/-- A step that keeps all regions where they are. -/
theorem keep (h : s.Isolated T extent es) (haccounts : s'.Accounts T (es ++ [e]))
    (hextent : s'.heap.extentOf = s.heap.extentOf) (hhandles : s'.hub.handles = s.hub.handles)
    (hsub : (clientRegions (es ++ [e])).Sublist (clientRegions es))
    (hplaced : ∀ r ∈ clientRegions (es ++ [e]), ∀ handle ∈ s.hub.handles,
      s.heap.Placed r handle → s'.heap.Placed r handle) : s'.Isolated T extent (es ++ [e]) where
  accounts := haccounts
  extent_eq := hextent.trans h.extent_eq
  placed r hr := by
    obtain ⟨handle, hh, hin⟩ := h.placed r (hsub.subset hr)
    rw [hhandles]
    exact ⟨handle, hh, hplaced r hr handle hh hin⟩
  positive r hr := h.positive r (hsub.subset hr)
  apart := h.apart.sublist hsub

/-- A served request adds a region that is apart from the others. -/
theorem serve {size : Nat} {hints : UInt32} {before after : List FwMemBackend} {b : FwMemBackend}
    (h : s.Isolated T extent es) (hserver : s.hub.server T s.heap size hints =
      some (before, b, after))
    (haccounts : s'.Accounts T (es ++ [e]))
    (hheap : s'.heap = (s.heap.serve T size b.handle).2)
    (hhandles : s'.hub.handles = s.hub.handles)
    (hregions : clientRegions (es ++ [e]) =
      ((s.heap.serve T size b.handle).1, size) :: clientRegions es) :
    s'.Isolated T extent (es ++ [e]) ∧
      ∀ r ∈ clientRegions (es ++ [e]), Untouched r s.heap.mem s'.heap.mem := by
  obtain ⟨hsize, -, hb, haccepts⟩ := FwMemHub.server_some hserver
  have hvalid := h.accounts.valid
  have hapart := h.accounts.apart
  obtain ⟨hlayout, -, -⟩ := hvalid.serve_spec hb hsize haccepts
  have hgranted := hvalid.serve_placed hb hapart hsize haccepts
  have hkeeps : ∀ r ∈ clientRegions es, ∃ handle ∈ s.hub.handles, s.heap.Placed r handle ∧
      (s.heap.serve T size b.handle).2.Placed r handle ∧
      Apart ((s.heap.serve T size b.handle).1, size) r := by
    intro r hr
    obtain ⟨handle, hh, hin⟩ := h.placed r hr
    exact ⟨handle, hh, hin, hvalid.serve_keeps hb hapart hsize haccepts hh hin⟩
  constructor
  · refine ⟨haccounts, ?_, ?_, ?_, ?_⟩
    · rw [hheap, ← h.extent_eq]
      exact funext hlayout.extentOf
    · rw [hregions, hheap, hhandles]
      intro r hr
      rcases List.mem_cons.mp hr with rfl | hr
      · exact ⟨b.handle, hb, hgranted⟩
      · obtain ⟨handle, hh, -, hin, -⟩ := hkeeps r hr
        exact ⟨handle, hh, hin⟩
    · rw [hregions]
      intro r hr
      rcases List.mem_cons.mp hr with rfl | hr
      · exact Nat.pos_of_ne_zero hsize
      · exact h.positive r hr
    · rw [hregions, List.pairwise_cons]
      refine ⟨fun r hr => ?_, h.apart⟩
      obtain ⟨-, -, -, -, hside⟩ := hkeeps r hr
      exact hside
  · rw [hregions, hheap]
    intro r hr
    rcases List.mem_cons.mp hr with rfl | hr
    · exact hvalid.granted_untouched hb haccepts
    · obtain ⟨handle, hh, hin, -, -⟩ := hkeeps r hr
      exact hvalid.serve_untouched hb hapart hsize haccepts hh hin

end HubState.Isolated

/-- Every step keeps the regions apart, and a call changes none of their bytes. -/
theorem HubStep.isolated (hstep : HubStep T assert s e s') (h : s.Isolated T extent es) :
    s'.Isolated T extent (es ++ [e]) ∧
      (e.call ≠ .write → ∀ r ∈ clientRegions (es ++ [e]), Untouched r s.heap.mem s'.heap.mem) := by
  have haccounts := hstep.accounts h.accounts
  have hhandles := (hstep.valid h.accounts.valid).2
  have hvalid := h.accounts.valid
  cases hstep with
  | alloc size hints =>
      cases hserver : s.hub.server T s.heap size hints with
      | none =>
          obtain ⟨hptr, hheap, -⟩ := fwMemHubAlloc_none hvalid hserver
          have hsame : clientRegions (es ++ [⟨.alloc size hints
              (fwMemHubAlloc T s.heap s.hub size hints).1,
              (fwMemHubAlloc T s.heap s.hub size hints).2.2⟩]) = clientRegions es := by
            rw [clientRegions_concat, HubCall.regions, if_pos hptr]
          refine ⟨h.keep haccounts (by rw [hheap]) hhandles (by rw [hsame]) ?_, ?_⟩
          · rw [hheap]
            exact fun _ _ _ _ hin => hin
          · rw [hheap]
            exact fun _ _ _ _ _ _ => rfl
      | some r =>
          obtain ⟨before, b, after⟩ := r
          obtain ⟨hptr, hheap, -⟩ := fwMemHubAlloc_some hvalid hserver
          obtain ⟨-, -, hb, haccepts⟩ := FwMemHub.server_some hserver
          have hnull := (hvalid.serve_accepted hb haccepts).1
          obtain ⟨hisolated, huntouched⟩ := h.serve hserver haccounts hheap hhandles (by
            rw [clientRegions_concat, HubCall.regions, hptr, if_neg hnull])
          exact ⟨hisolated, fun _ => huntouched⟩
  | free ptr =>
      rcases fwMemHubFree_cases assert hvalid ptr with
        ⟨-, status, hstatus, heq⟩ |
        ⟨before, b, after, p, i, hs, hhandle, hi, rfl, hset, heq, -⟩
      · rw [heq] at haccounts hhandles ⊢
        have hsame : clientRegions (es ++ [⟨.free ptr status, s.hub⟩]) = clientRegions es := by
          rw [clientRegions_concat, HubCall.regions, if_neg hstatus]
        refine ⟨h.keep haccounts rfl hhandles (by rw [hsame]) fun _ _ _ _ hin => hin, ?_⟩
        exact fun _ _ _ _ _ _ => rfl
      · rw [heq] at haccounts hhandles ⊢
        have hp : .pool p ∈ s.hub.handles := by
          rw [← hhandle, FwMemHub.handles, hs]
          exact List.mem_map_of_mem (List.mem_append_right _ List.mem_cons_self)
        have hregions (hub : FwMemHub) :
            clientRegions (es ++ [⟨.free ((s.heap.pools p).addr i) .ok, hub⟩]) =
              (clientRegions es).filter (·.1 ≠ (s.heap.pools p).addr i) := by
          rw [clientRegions_concat, HubCall.regions, if_pos rfl]
        have hkeeps : ∀ r ∈ (clientRegions es).filter (·.1 ≠ (s.heap.pools p).addr i),
            ∀ handle ∈ s.hub.handles, s.heap.Placed r handle →
              (s.heap.release T assert p i).Placed r handle ∧
                Untouched r s.heap.mem (s.heap.release T assert p i).mem := by
          intro r hr handle hh hin
          have hne : r.1 ≠ (s.heap.pools p).addr i :=
            of_decide_eq_true (List.mem_filter.mp hr).2
          exact hvalid.release_keeps assert hp h.accounts.apart hi hset hh hin hne
        constructor
        · refine h.keep haccounts ?_ hhandles ?_ ?_
          · have hlayout : s.heap.SameLayout (s.heap.release T assert p i) :=
              Heap.sameLayout_update
            exact funext hlayout.extentOf
          · rw [hregions]
            exact List.filter_sublist
          · rw [hregions]
            exact fun r hr handle hh hin => (hkeeps r hr handle hh hin).1
        · rw [hregions]
          intro _ r hr
          obtain ⟨handle, hh, hin⟩ := h.placed r (List.mem_of_mem_filter hr)
          exact (hkeeps r hr handle hh hin).2
  | write mem hwrites =>
      have hsame : clientRegions (es ++ [⟨.write, s.hub⟩]) = clientRegions es := by
        rw [clientRegions_concat]
        rfl
      refine ⟨h.keep haccounts (funext fun handle => by cases handle <;> rfl) rfl (by rw [hsame]) ?_,
        fun hno => absurd rfl hno⟩
      intro r _ handle hh hin
      cases handle with
      | pool p =>
          obtain ⟨i, hi, hset, haddr, hle⟩ := hin
          exact ⟨i, hi, (hwrites.isSet hvalid hh hi).trans hset, haddr, hle⟩
      | arena a => exact hin

end Steps

/-- Over freshly initialised pools and arenas in separate buffers, the regions that were granted
and not given back lie in the buffers and apart from each other along every run, and neither a
request nor a release changes a byte of them. -/
theorem fwMemHub_isolates {T : Target} {assert : Bool} {buffer : FwMemHandle → Nat × Nat}
    {s₀ s : HubState} {es : List HubEvent} (hfresh : FreshHub T buffer s₀)
    (hrun : Run (HubStep T assert) s₀ es s) :
    (∀ r ∈ clientRegions es, 0 < r.2 ∧ ∃ handle ∈ s₀.hub.handles, (buffer handle).1 ≤ r.1 ∧
      r.1 + r.2 ≤ (buffer handle).1 + (buffer handle).2) ∧
    (clientRegions es).Pairwise Apart ∧
    ∀ e s', HubStep T assert s e s' → e.call ≠ .write →
      ∀ r ∈ clientRegions (es ++ [e]), Untouched r s.heap.mem s'.heap.mem := by
  have hstart : s₀.Isolated T s₀.heap.extentOf [] ∧ s₀.hub.handles = s₀.hub.handles :=
    ⟨⟨hfresh.accounts, rfl, fun _ hr => absurd hr List.not_mem_nil,
      fun _ hr => absurd hr List.not_mem_nil, List.Pairwise.nil⟩, rfl⟩
  have hend : s.Isolated T s₀.heap.extentOf es ∧ s.hub.handles = s₀.hub.handles := by
    refine hrun.invariant (fun t es => t.Isolated T s₀.heap.extentOf es ∧
      t.hub.handles = s₀.hub.handles) hstart ?_
    rintro t es e u ⟨h, hhandles⟩ hstep
    exact ⟨(hstep.isolated h).1, (hstep.valid h.accounts.valid).2.trans hhandles⟩
  obtain ⟨h, hhandles⟩ := hend
  refine ⟨fun r hr => ⟨h.positive r hr, ?_⟩, h.apart,
    fun e s' hstep hcall => (hstep.isolated h).2 hcall⟩
  obtain ⟨handle, hh, hin⟩ := h.placed r hr
  have hinside := h.accounts.valid.placed_inside hh hin
  rw [h.extent_eq] at hinside
  rw [hhandles] at hh
  have hbuffer := hfresh.extent_inside hh
  exact ⟨handle, hh, by omega, by omega⟩

/-- Two blocks and a part of an arena, the first block given back. -/
theorem fwMemHub_isolates_sample :
    ∃ (s : HubState) (es : List HubEvent), clientRegions es = [(4096, 100), (28, 8)] ∧
      (∀ r ∈ clientRegions es, 0 < r.2 ∧ ∃ handle ∈ sampleAccounts.hub.handles,
        (sampleBuffers handle).1 ≤ r.1 ∧
          r.1 + r.2 ≤ (sampleBuffers handle).1 + (sampleBuffers handle).2) ∧
      (clientRegions es).Pairwise Apart ∧
      ∀ e s', HubStep target32 true s e s' → e.call ≠ .write →
        ∀ r ∈ clientRegions (es ++ [e]), Untouched r s.heap.mem s'.heap.mem := by
  have hfirst : Run (HubStep target32 true) sampleAccounts _ _ :=
    Run.single (HubStep.alloc _ 5 fwMemHintFast)
  have hsecond := hfirst.snoc (HubStep.alloc _ 8 fwMemHintFast)
  have hthird := hsecond.snoc (HubStep.alloc _ 100 0)
  have hfourth := hthird.snoc (HubStep.free _ 20)
  exact ⟨_, _, by decide +kernel, fwMemHub_isolates sampleAccounts_fresh hfourth⟩

end ZeroEmbedded.Memory
