import ZeroEmbedded.Memory.HubAccounting
import ZeroEmbedded.Memory.HubReserve

/-!
# What the memory hub can still grant

`fw_mem_hub_get_free_space` adds up what the pools and arenas of a tier have
above their reserves. A request is refused only when no backend that it may
use accepts it, and a granted request is paid for by one of their tiers.
-/

namespace ZeroEmbedded.Memory

open Foundation Foundation.Intervals

/-- What a backend has above its reserve. -/
def Heap.spaceOf (heap : Heap) (b : FwMemBackend) : Nat := heap.freeBytes b.handle - b.reserveBytes

/-- What the backends of a tier have above their reserves. -/
def HubState.space (s : HubState) (tier : Nat) : Nat :=
  ((s.hub.backends.filter (·.tier = tier)).map s.heap.spaceOf).sum

/-- The state behind a request. -/
def HubState.requested (T : Target) (s : HubState) (size : Nat) (hints : UInt32) : HubState where
  heap := (fwMemHubAlloc T s.heap s.hub size hints).2.1
  hub := (fwMemHubAlloc T s.heap s.hub size hints).2.2
  held := (fwMemHubAlloc T s.heap s.hub size hints).1 :: s.held

/-- The state behind a release. -/
def HubState.freed (T : Target) (assert : Bool) (s : HubState) (ptr : Nat) : HubState where
  heap := (fwMemHubFree T assert s.heap s.hub ptr).2.1
  hub := (fwMemHubFree T assert s.heap s.hub ptr).2.2
  held := s.held.filter (· ≠ ptr)

/-- How requests, releases and the reported space of the tiers belong together. -/
structure HubState.ReportsSpace (T : Target) (assert : Bool) (s : HubState) : Prop where
  reported : ∀ tier < fwMemTierCount,
    fwMemHubGetFreeSpace T s.heap s.hub tier = s.space tier
  refused : ∀ size hints, (fwMemHubAlloc T s.heap s.hub size hints).1 = fwNull ↔
    size = 0 ∨ ∀ b ∈ s.hub.backends, b.tier ∈ searchOrder hints →
      s.heap.accepts T size b = false
  granted : ∀ size hints, (fwMemHubAlloc T s.heap s.hub size hints).1 ≠ fwNull →
    ∃ b ∈ s.hub.backends, b.tier ∈ searchOrder hints ∧ size ≤ s.space b.tier ∧
      ∀ tier, (s.requested T size hints).space tier +
        (if tier = b.tier then min (s.heap.taken T size b.handle) (s.heap.spaceOf b) else 0) =
          s.space tier
  returned : ∀ size hints,
    let ptr := (fwMemHubAlloc T s.heap s.hub size hints).1
    ptr ≠ fwNull →
      (fwMemHubFree T assert (s.requested T size hints).heap (s.requested T size hints).hub
        ptr).1 = .ok →
      ∀ tier, ((s.requested T size hints).freed T assert ptr).space tier = s.space tier

section Sums

variable {bs before after : List FwMemBackend} {b b' : FwMemBackend} {f g : FwMemBackend → Nat}
  {tier : Nat}

/-- A sum over the backends of a tier that does not wrap around. -/
theorem foldl_tier {T : Target} {total : Nat}
    (h : total + ((bs.filter (·.tier = tier)).map f).sum < T.sizeMod) :
    bs.foldl (fun total b => if b.tier = tier then T.size (total + f b) else total) total =
      total + ((bs.filter (·.tier = tier)).map f).sum := by
  induction bs generalizing total with
  | nil => rfl
  | cons b bs ih =>
      rw [List.foldl_cons]
      by_cases htier : b.tier = tier
      · rw [List.filter_cons_of_pos (by simp [htier]), List.map_cons, List.sum_cons] at h ⊢
        have hsize : T.size (total + f b) = total + f b := Nat.mod_eq_of_lt (by omega)
        rw [if_pos htier, hsize, ih (by omega), Nat.add_assoc]
      · rw [List.filter_cons_of_neg (by simp [htier])] at h ⊢
        rw [if_neg htier, ih h]

/-- The sum over a tier after one backend was replaced. -/
theorem sum_tier_replace (htier : b'.tier = b.tier)
    (hothers : ∀ c ∈ before ++ after, g c = f c) {d : Nat} (hone : g b' + d = f b) (tier : Nat) :
    (((before ++ b' :: after).filter (·.tier = tier)).map g).sum +
        (if tier = b.tier then d else 0) =
      (((before ++ b :: after).filter (·.tier = tier)).map f).sum := by
  have hside : ∀ l : List FwMemBackend, (∀ c ∈ l, g c = f c) →
      ((l.filter (·.tier = tier)).map g).sum = ((l.filter (·.tier = tier)).map f).sum := by
    intro l hl
    rw [List.map_congr_left fun c hc => hl c (List.mem_of_mem_filter hc)]
  have hbefore := hside before fun c hc => hothers c (List.mem_append_left _ hc)
  have hafter := hside after fun c hc => hothers c (List.mem_append_right _ hc)
  rw [List.filter_append, List.filter_append, List.map_append, List.map_append, List.sum_append,
    List.sum_append, hbefore]
  by_cases hb : tier = b.tier
  · rw [if_pos hb, List.filter_cons_of_pos (by simp [htier, hb]),
      List.filter_cons_of_pos (by simp [hb]), List.map_cons, List.map_cons, List.sum_cons,
      List.sum_cons, hafter]
    omega
  · rw [if_neg hb, List.filter_cons_of_neg (by simp [htier, Ne.symm hb]),
      List.filter_cons_of_neg (by simp [Ne.symm hb]), hafter, Nat.add_zero]

end Sums

namespace HubState.Accounts

variable {T : Target} {assert : Bool} {s : HubState} {es : List HubEvent}
  {before after : List FwMemBackend} {b c : FwMemBackend} {size : Nat} {hints : UInt32}

/-- The free bytes of a backend lie in its memory. -/
theorem freeBytes_le (h : s.Accounts T es) {handle : FwMemHandle} (hh : handle ∈ s.hub.handles) :
    s.heap.freeBytes handle ≤ (s.heap.extentOf handle).2 := by
  cases handle with
  | pool p =>
      obtain ⟨free, hfree⟩ := h.valid.pool p hh
      have hle := hfree.layout.bitmap_le
      have hcount : (s.heap.pools p).freeCount * (s.heap.pools p).blockSize ≤
          (s.heap.pools p).capacity * (s.heap.pools p).blockSize := by
        apply Nat.mul_le_mul_right
        rw [hfree.count]
        exact hfree.length_le
      rw [Heap.freeBytes, Heap.extentOf, FwPool.extent]
      dsimp only
      omega
  | arena a => exact Nat.sub_le _ _

/-- The free bytes of all backends fit into the address space. -/
theorem freeBytes_total (h : s.Accounts T es) :
    (s.hub.backends.map fun b => s.heap.freeBytes b.handle).sum < T.sizeMod := by
  have hapart : (s.hub.handles.map s.heap.extentOf).Pairwise Apart := by
    rw [List.pairwise_map]
    exact List.Pairwise.imp_of_mem (fun hx hy hne => h.apart _ hx _ hy hne) h.once
  have hend : ∀ region ∈ s.hub.handles.map s.heap.extentOf,
      region.1 + region.2 ≤ T.sizeMod - 1 := by
    intro region hregion
    obtain ⟨handle, hh, rfl⟩ := List.mem_map.mp hregion
    exact h.extent_end hh
  have hlength := sum_length_le hapart (fun _ _ => Nat.zero_le _) hend
  rw [FwMemHub.handles, List.map_map, List.map_map] at hlength
  have hpos := T.sizeMod_ge
  calc (s.hub.backends.map fun b => s.heap.freeBytes b.handle).sum
      ≤ (s.hub.backends.map fun b => (s.heap.extentOf b.handle).2).sum :=
        List.sum_le_sum fun b hb => h.freeBytes_le (List.mem_map_of_mem hb)
    _ ≤ T.sizeMod - 1 - 0 := hlength
    _ < T.sizeMod := by omega

theorem freeSpaceOf_eq (h : s.Accounts T es) (hb : b ∈ s.hub.backends) :
    freeSpaceOf T s.heap b = s.heap.spaceOf b := by
  have hh : b.handle ∈ s.hub.handles := List.mem_map_of_mem hb
  have hraw : ∀ n : Nat, (if n > b.reserveBytes then n - b.reserveBytes else 0) =
      n - b.reserveBytes := by
    intro n
    split <;> omega
  rw [freeSpaceOf, Heap.spaceOf]
  dsimp only
  rw [hraw]
  cases hhandle : b.handle with
  | pool p =>
      rw [hhandle] at hh
      dsimp only
      rw [(h.valid.freeBytes_size hh).1]
  | arena a =>
      dsimp only
      rw [Heap.freeBytes]
      congr 1
      split <;> omega

/-- The reported space is the sum over the tier. -/
theorem reported (h : s.Accounts T es) {tier : Nat} (htier : tier < fwMemTierCount) :
    fwMemHubGetFreeSpace T s.heap s.hub tier = s.space tier := by
  have hsame : (s.hub.backends.filter (·.tier = tier)).map (freeSpaceOf T s.heap) =
      (s.hub.backends.filter (·.tier = tier)).map s.heap.spaceOf :=
    List.map_congr_left fun b hb => h.freeSpaceOf_eq (List.mem_of_mem_filter hb)
  have hle : ((s.hub.backends.filter (·.tier = tier)).map s.heap.spaceOf).sum ≤
      (s.hub.backends.map fun b => s.heap.freeBytes b.handle).sum := by
    refine Nat.le_trans (List.Sublist.sum_le_sum ?_ fun _ _ => Nat.zero_le _)
      (List.sum_le_sum fun b _ => Nat.sub_le (s.heap.freeBytes b.handle) b.reserveBytes)
    exact List.filter_sublist.map _
  have htotal := h.freeBytes_total
  rw [fwMemHubGetFreeSpace, if_neg (Nat.not_le.mpr htier), foldl_tier (by rw [hsame]; omega),
    hsame, Nat.zero_add, HubState.space]

/-- A request without a server is refused, and only then. -/
theorem refused_iff (h : s.Accounts T es) (size : Nat) (hints : UInt32) :
    (fwMemHubAlloc T s.heap s.hub size hints).1 = fwNull ↔
      size = 0 ∨ ∀ b ∈ s.hub.backends, b.tier ∈ searchOrder hints →
        s.heap.accepts T size b = false := by
  have hnone : s.hub.server T s.heap size hints = none ↔
      size = 0 ∨ ∀ b ∈ s.hub.backends, b.tier ∈ searchOrder hints →
        s.heap.accepts T size b = false := by
    rw [FwMemHub.server]
    by_cases hsize : size = 0
    · rw [if_pos hsize]
      exact iff_of_true rfl (Or.inl hsize)
    · rw [if_neg hsize, firstFitOf_eq_none, or_iff_right hsize]
      constructor
      · intro hno b hb htier
        have hb := hno b.tier htier b hb
        rwa [decide_eq_true rfl, Bool.true_and] at hb
      · intro hno tier htier b hb
        rw [Bool.and_eq_false_iff, decide_eq_false_iff_not]
        by_cases heq : b.tier = tier
        · exact Or.inr (hno b hb (heq ▸ htier))
        · exact Or.inl heq
  rw [← hnone]
  cases hserver : s.hub.server T s.heap size hints with
  | none => exact iff_of_true (fwMemHubAlloc_none h.valid hserver).1 rfl
  | some r =>
      obtain ⟨before, b, after⟩ := r
      obtain ⟨-, -, hb, haccepts⟩ := FwMemHub.server_some hserver
      refine iff_of_false ?_ (fun hno => Option.some_ne_none _ hno)
      rw [(fwMemHubAlloc_some h.valid hserver).1]
      exact (h.valid.serve_accepted hb haccepts).1

end HubState.Accounts

/-- The server of a request belongs to a tier of the search order. -/
theorem FwMemHub.server_tier {T : Target} {heap : Heap} {hub : FwMemHub} {size : Nat}
    {hints : UInt32} {before after : List FwMemBackend} {b : FwMemBackend}
    (h : hub.server T heap size hints = some (before, b, after)) : b.tier ∈ searchOrder hints := by
  rw [FwMemHub.server] at h
  split at h
  · cases h
  · obtain ⟨-, tier, htier, haccepts⟩ := firstFitOf_some h
    rw [Bool.and_eq_true, decide_eq_true_eq] at haccepts
    rwa [haccepts.1]

/-- A backend that accepts a request has that much above its reserve. -/
theorem Heap.size_le_spaceOf {T : Target} {heap : Heap} {size : Nat} {b : FwMemBackend}
    (haccepts : heap.accepts T size b = true) : size ≤ heap.spaceOf b := by
  rw [Heap.accepts] at haccepts
  rw [Heap.spaceOf]
  cases hhandle : b.handle with
  | pool p =>
      rw [hhandle] at haccepts
      have hmargin := of_decide_eq_true haccepts
      omega
  | arena a =>
      rw [hhandle] at haccepts
      have hmargin := of_decide_eq_true haccepts
      omega

/-- A released block is added to the free bytes of its pool. -/
theorem Heap.release_freeBytes_eq (T : Target) (assert : Bool) (heap : Heap) (p i : Nat)
    (handle : FwMemHandle) : (heap.release T assert p i).freeBytes handle =
      heap.freeBytes handle + if handle = .pool p then (heap.pools p).blockSize else 0 := by
  cases handle with
  | pool q =>
      rw [Heap.release, Heap.freeBytes, Heap.freeBytes]
      dsimp only
      by_cases heq : q = p
      · subst heq
        rw [Function.update_self, if_pos rfl]
        exact Nat.succ_mul _ _
      · rw [Function.update_of_ne heq, if_neg fun h => heq (FwMemHandle.pool.inj h), Nat.add_zero]
  | arena a => rfl

/-- Neither counting a grant nor uncounting a block moves a backend or its reserve. -/
def FwMemBackend.place (b : FwMemBackend) : Nat × FwMemHandle × Nat :=
  (b.tier, b.handle, b.reserveBytes)

/-- The space of the tiers depends on the free bytes and on the places of the backends. -/
theorem HubState.space_congr {s s' : HubState}
    (hplace : s'.hub.backends.map FwMemBackend.place = s.hub.backends.map FwMemBackend.place)
    (hbytes : s'.heap.freeBytes = s.heap.freeBytes) (tier : Nat) :
    s'.space tier = s.space tier := by
  have hcolumn : ∀ t : HubState, t.space tier =
      (((t.hub.backends.map FwMemBackend.place).filter (·.1 = tier)).map
        fun place => t.heap.freeBytes place.2.1 - place.2.2).sum := by
    intro t
    rw [List.filter_map, List.map_map]
    rfl
  rw [hcolumn, hcolumn, hplace, hbytes]

namespace HubState.Accounts

variable {T : Target} {assert : Bool} {s : HubState} {es : List HubEvent}
  {before after : List FwMemBackend} {b c : FwMemBackend} {size : Nat} {hints : UInt32}

/-- A granted request is paid for by the tier of its server. -/
theorem granted (h : s.Accounts T es) (size : Nat) (hints : UInt32)
    (hptr : (fwMemHubAlloc T s.heap s.hub size hints).1 ≠ fwNull) :
    ∃ b ∈ s.hub.backends, b.tier ∈ searchOrder hints ∧ size ≤ s.space b.tier ∧
      ∀ tier, (s.requested T size hints).space tier +
        (if tier = b.tier then min (s.heap.taken T size b.handle) (s.heap.spaceOf b) else 0) =
          s.space tier := by
  cases hserver : s.hub.server T s.heap size hints with
  | none => exact absurd (fwMemHubAlloc_none h.valid hserver).1 hptr
  | some r =>
      obtain ⟨before, b, after⟩ := r
      obtain ⟨-, hheap, hbackends⟩ := fwMemHubAlloc_some h.valid hserver
      obtain ⟨-, hs, hb, haccepts⟩ := FwMemHub.server_some hserver
      obtain ⟨htaken, hbytes⟩ := h.valid.serve_freeBytes hb haccepts
      have hmem : b ∈ s.hub.backends := by
        rw [hs]
        exact List.mem_append_right _ List.mem_cons_self
      have hothers : ∀ c ∈ before ++ after, c.handle ≠ b.handle := by
        have honce := h.once
        rw [FwMemHub.handles, hs, List.map_append, List.map_cons, List.nodup_middle,
          List.nodup_cons, ← List.map_append] at honce
        exact fun c hc heq => honce.1 (heq ▸ List.mem_map_of_mem hc)
      refine ⟨b, hmem, FwMemHub.server_tier hserver, ?_, fun tier => ?_⟩
      · refine Nat.le_trans (Heap.size_le_spaceOf haccepts) (List.single_le_sum ?_ _ ?_)
        · exact fun _ _ => Nat.zero_le _
        · exact List.mem_map_of_mem (List.mem_filter.mpr ⟨hmem, decide_eq_true rfl⟩)
      · rw [HubState.space, HubState.space, HubState.requested]
        dsimp only
        rw [hheap, hbackends, hs]
        have hsame : (b.grant T (s.heap.counted size b.handle)).tier = b.tier := rfl
        refine sum_tier_replace hsame ?_ ?_ tier
        · intro c hc
          rw [Heap.spaceOf, Heap.spaceOf, hbytes, if_neg (hothers c hc)]
        · have hone : (s.heap.serve T size b.handle).2.freeBytes b.handle =
              s.heap.freeBytes b.handle - s.heap.taken T size b.handle := by
            rw [hbytes, if_pos rfl]
          change (s.heap.serve T size b.handle).2.freeBytes b.handle - b.reserveBytes + _ = _
          rw [hone, Heap.spaceOf]
          omega

/-- Giving back what was just granted restores the space of every tier. -/
theorem returned (h : s.Accounts T es) (size : Nat) (hints : UInt32) {ptr : Nat}
    (hptr : (fwMemHubAlloc T s.heap s.hub size hints).1 = ptr) (hnull : ptr ≠ fwNull)
    (hok : (fwMemHubFree T assert (s.requested T size hints).heap
      (s.requested T size hints).hub ptr).1 = .ok) (tier : Nat) :
    ((s.requested T size hints).freed T assert ptr).space tier = s.space tier := by
  have hstep := (@HubStep.alloc T assert s size hints).accounts h
  rw [if_neg (hptr.trans_ne hnull)] at hstep
  change (s.requested T size hints).Accounts T _ at hstep
  cases hserver : s.hub.server T s.heap size hints with
  | none => exact absurd ((fwMemHubAlloc_none h.valid hserver).1.symm.trans hptr).symm hnull
  | some r =>
      obtain ⟨before, b, after⟩ := r
      obtain ⟨haddr, hheap, hbackends⟩ := fwMemHubAlloc_some h.valid hserver
      obtain ⟨hsize, hs, hb, haccepts⟩ := FwMemHub.server_some hserver
      obtain ⟨hlayout, hinside, -⟩ := h.valid.serve_spec hb hsize haccepts
      obtain ⟨htaken, hbytes⟩ := h.valid.serve_freeBytes hb haccepts
      have hheap' : (s.requested T size hints).heap = (s.heap.serve T size b.handle).2 := hheap
      have hbackends' : (s.requested T size hints).hub.backends =
          before ++ b.grant T (s.heap.counted size b.handle) :: after := hbackends
      rcases fwMemHubFree_cases assert hstep.valid ptr with
        ⟨-, status, hstatus, heq⟩ |
        ⟨before', b', after', p, i, hs', hhandle, hi, hblock, -, heq, -⟩
      · rw [heq] at hok
        exact absurd hok hstatus
      · have hp : .pool p ∈ (s.requested T size hints).hub.handles := by
          rw [← hhandle, FwMemHub.handles, hs']
          exact List.mem_map_of_mem (List.mem_append_right _ List.mem_cons_self)
        have hb' : b.handle ∈ (s.requested T size hints).hub.handles := by
          rw [FwMemHub.handles, hbackends', List.map_append, List.map_cons]
          exact List.mem_append_right _ List.mem_cons_self
        -- the block was granted by the pool that takes it back
        have hsame : b.handle = .pool p := by
          by_contra hne
          have hrange := hstep.valid.addr_inside hp hi
          rw [← hblock, ← hptr, haddr, hheap', hlayout.extentOf] at hrange
          have hapart := hstep.apart _ hb' _ hp hne
          rw [hheap', hlayout.extentOf, hlayout.extentOf] at hapart
          rcases hapart with hapart | hapart <;> omega
        have htook : s.heap.taken T size b.handle = (s.heap.pools p).blockSize := by
          rw [hsame]
          rfl
        apply HubState.space_congr
        · have hgrant : (b.grant T (s.heap.counted size b.handle)).place = b.place := rfl
          have hfree : ((s.requested T size hints).heap.unrecorded b' p).place = b'.place := by
            rw [Heap.unrecorded]
            split <;> rfl
          rw [HubState.freed, heq]
          dsimp only
          rw [List.map_append, List.map_cons, hfree, ← List.map_cons, ← List.map_append, ← hs',
            hbackends', hs, List.map_append, List.map_cons, hgrant, ← List.map_cons,
            ← List.map_append]
        · funext handle
          rw [HubState.freed, heq]
          dsimp only
          rw [Heap.release_freeBytes_eq, hheap', hbytes, hlayout.blockSize, hsame]
          by_cases hone : handle = .pool p
          · rw [hsame] at htaken htook
            rw [if_pos hone, if_pos hone, hone, htook]
            omega
          · rw [if_neg hone, if_neg hone, Nat.add_zero]

end HubState.Accounts

/-- Along every run over freshly initialised pools and arenas, the reported space of a tier is what
its backends have above their reserves, a request is refused only when no backend of its search
order accepts it, a granted request is paid for by one tier, and giving it back restores the
space. -/
theorem fwMemHub_reports_space {T : Target} {assert : Bool} {buffer : FwMemHandle → Nat × Nat}
    {s₀ s : HubState} {es : List HubEvent} (hfresh : FreshHub T buffer s₀)
    (hrun : Run (HubStep T assert) s₀ es s) : s.ReportsSpace T assert := by
  have haccounts : s.Accounts T es :=
    hrun.invariant (fun t es => t.Accounts T es) hfresh.accounts
      fun _ _ _ _ h hstep => hstep.accounts h
  exact ⟨fun _ htier => haccounts.reported htier, haccounts.refused_iff, haccounts.granted,
    fun size hints hnull hok => haccounts.returned size hints rfl hnull hok⟩

/-- One block is held, and the space of the tiers is 8, 0 and 384 bytes. -/
theorem fwMemHub_reports_space_sample :
    ∃ s : HubState, s.held = [20] ∧
      [0, 1, 2].map (fwMemHubGetFreeSpace target32 s.heap s.hub) = [8, 0, 384] ∧
      s.ReportsSpace target32 true := by
  have hfirst : Run (HubStep target32 true) sampleAccounts _ _ :=
    Run.single (HubStep.alloc _ 5 fwMemHintFast)
  exact ⟨_, by decide +kernel, by decide +kernel,
    fwMemHub_reports_space sampleAccounts_fresh hfirst⟩

end ZeroEmbedded.Memory
