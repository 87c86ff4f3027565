import ZeroEmbedded.Hal.Watchdog

/-!
# Heartbeats from interrupts

The calls of the main loop are split at their accesses to `reported_mask`, and
a complete `fw_wdt_heartbeat` may run in an interrupt between any two of these
steps. A heartbeat that falls between a load of the mask and the store that
follows it is overwritten by that store.

## Implementation notes

`fw_wdt_service` samples the mask, calls `hw_kick_fn` and clears the mask; the
store of `last_kick_ms` is part of the last step. `fw_wdt_heartbeat`,
`fw_wdt_register_task` and `fw_wdt_unregister_task` load the mask and store it
with a bit set or cleared. The last two change `registered_mask` before, which
no interrupt accesses, in the step that begins the call. A call with an invalid
task does nothing and has no steps.
-/

namespace ZeroEmbedded.Wdt

open Foundation

/-- A call of the main loop that changes one bit of `reported_mask`. -/
inductive MaskUpdate
  | heartbeat (taskId : UInt8)
  | registerTask (taskId : UInt8)
  | unregisterTask (taskId : UInt8)

def MaskUpdate.taskId : MaskUpdate → UInt8
  | .heartbeat t => t
  | .registerTask t => t
  | .unregisterTask t => t

/-- What the call makes of `registered_mask`. -/
def MaskUpdate.registered (mask : BitVec 32) : MaskUpdate → BitVec 32
  | .heartbeat _ => mask
  | .registerTask t => mask ||| taskBit t
  | .unregisterTask t => mask &&& ~~~taskBit t

/-- What the call stores in `reported_mask` when it has loaded this. -/
def MaskUpdate.reported (loaded : BitVec 32) : MaskUpdate → BitVec 32
  | .heartbeat t => loaded ||| taskBit t
  | .registerTask t => loaded ||| taskBit t
  | .unregisterTask t => loaded &&& ~~~taskBit t

/-- The function of the source. -/
def MaskUpdate.run (wdt : FwWdtSupervisor) : MaskUpdate → FwWdtSupervisor
  | .heartbeat t => fwWdtHeartbeat wdt t
  | .registerTask t => (fwWdtRegisterTask wdt t).2
  | .unregisterTask t => (fwWdtUnregisterTask wdt t).2

/-- Where the main loop stands. -/
inductive MainLoop
  | idle
  | kicking (now : UInt32)
  | clearing (now : UInt32)
  | loading (u : MaskUpdate)
  | storing (u : MaskUpdate) (loaded : BitVec 32)

/-- The supervisor and the call of the main loop that is under way. -/
structure IsrSystem where
  wdt : FwWdtSupervisor
  mainLoop : MainLoop

/-- A step. A heartbeat says whether its task was registered. -/
inductive IsrEvent
  | isrHeartbeat (taskId : UInt8) (registered : Bool)
  | sample (millis : UInt32)
  | kick
  | clear
  | call (u : MaskUpdate)
  | load
  | store (u : MaskUpdate) (registered : Bool)

/-- The task is monitored. -/
def FwWdtSupervisor.monitors (wdt : FwWdtSupervisor) (t : UInt8) : Bool :=
  wdt.registeredMask.getLsbD t.toNat

/-- The steps of the main loop and of the interrupt. -/
inductive IsrStep : IsrSystem → IsrEvent → IsrSystem → Prop
  | isrHeartbeat (wdt : FwWdtSupervisor) (pc : MainLoop) (t : UInt8) :
      IsrStep ⟨wdt, pc⟩ (.isrHeartbeat t (wdt.monitors t)) ⟨fwWdtHeartbeat wdt t, pc⟩
  | sampleIdle (wdt : FwWdtSupervisor) (millis : UInt32) (h : fwWdtGetStarvingTasks wdt ≠ 0) :
      IsrStep ⟨wdt, .idle⟩ (.sample millis) ⟨wdt, .idle⟩
  | sampleKick (wdt : FwWdtSupervisor) (millis : UInt32) (h : fwWdtGetStarvingTasks wdt = 0)
      (hkick : wdt.hwKickFn = true) :
      IsrStep ⟨wdt, .idle⟩ (.sample millis) ⟨wdt, .kicking millis⟩
  | sampleClear (wdt : FwWdtSupervisor) (millis : UInt32) (h : fwWdtGetStarvingTasks wdt = 0)
      (hkick : wdt.hwKickFn = false) :
      IsrStep ⟨wdt, .idle⟩ (.sample millis) ⟨wdt, .clearing millis⟩
  | kick (wdt : FwWdtSupervisor) (now : UInt32) :
      IsrStep ⟨wdt, .kicking now⟩ .kick ⟨wdt, .clearing now⟩
  | clear (wdt : FwWdtSupervisor) (now : UInt32) :
      IsrStep ⟨wdt, .clearing now⟩ .clear ⟨{ wdt with reportedMask := 0, lastKickMs := now }, .idle⟩
  | call (wdt : FwWdtSupervisor) (u : MaskUpdate) (h : u.taskId.toNat < fwWdtMaxTasks) :
      IsrStep ⟨wdt, .idle⟩ (.call u)
        ⟨{ wdt with registeredMask := u.registered wdt.registeredMask }, .loading u⟩
  | load (wdt : FwWdtSupervisor) (u : MaskUpdate) :
      IsrStep ⟨wdt, .loading u⟩ .load ⟨wdt, .storing u wdt.reportedMask⟩
  | store (wdt : FwWdtSupervisor) (u : MaskUpdate) (loaded : BitVec 32) :
      IsrStep ⟨wdt, .storing u loaded⟩ (.store u (wdt.monitors u.taskId))
        ⟨{ wdt with reportedMask := u.reported loaded }, .idle⟩

section Uninterrupted

variable (wdt : FwWdtSupervisor)

/-- Without interrupts the steps of a service call are `fw_wdt_service`. -/
theorem service_steps (millis : UInt32) :
    Run IsrStep ⟨wdt, .idle⟩
      (if fwWdtGetStarvingTasks wdt = 0 then
        if wdt.hwKickFn then [.sample millis, .kick, .clear] else [.sample millis, .clear]
      else [.sample millis])
      ⟨(fwWdtService wdt millis).2, .idle⟩ := by
  rw [fwWdtService]
  split
  · next h =>
      split
      · next hkick =>
          have hrun := (Run.single (IsrStep.sampleKick wdt millis h hkick)).snoc
            (IsrStep.kick wdt millis)
          exact hrun.snoc (IsrStep.clear wdt millis)
      · next hkick =>
          have hsample := IsrStep.sampleClear wdt millis h (eq_false_of_ne_true hkick)
          exact (Run.single hsample).snoc (IsrStep.clear wdt millis)
  · next h =>
      have hrun := Run.single (IsrStep.sampleIdle wdt millis h)
      split
      · exact hrun
      · exact hrun

/-- Without interrupts the steps of the other calls are their functions. -/
theorem update_steps {u : MaskUpdate} (h : u.taskId.toNat < fwWdtMaxTasks) :
    Run IsrStep ⟨wdt, .idle⟩ [.call u, .load, .store u ((u.run wdt).monitors u.taskId)]
      ⟨u.run wdt, .idle⟩ := by
  have hload := (Run.single (IsrStep.call wdt u h)).snoc (IsrStep.load _ u)
  have hrun := hload.snoc (IsrStep.store _ u wdt.reportedMask)
  cases u with
  | heartbeat t =>
      have ht : t.toNat < fwWdtMaxTasks := h
      rw [MaskUpdate.run, fwWdtHeartbeat, if_pos ht]
      exact hrun
  | registerTask t =>
      have ht : t.toNat < fwWdtMaxTasks := h
      rw [MaskUpdate.run, fwWdtRegisterTask, if_neg (Nat.not_le.mpr ht)]
      exact hrun
  | unregisterTask t =>
      have ht : t.toNat < fwWdtMaxTasks := h
      rw [MaskUpdate.run, fwWdtUnregisterTask, if_neg (Nat.not_le.mpr ht)]
      exact hrun

end Uninterrupted

section Heartbeats

/-- The step completes a heartbeat of a registered task. -/
def IsrEvent.Beats (t : UInt8) (e : IsrEvent) : Prop :=
  e = .isrHeartbeat t true ∨ e = .store (.heartbeat t) true

/-- A kick whose evaluation of the mask is among these steps. -/
def Counted (steps : List IsrEvent) : Prop :=
  ∃ before millis after, steps = before ++ .sample millis :: after ∧ .kick ∈ after

/-- Every heartbeat of a registered task was counted by a later kick or is still set. -/
def HeartbeatsKept (history : List IsrEvent) (s : IsrSystem) : Prop :=
  ∀ before e after t, history = before ++ e :: after → e.Beats t →
    Counted after ∨ s.wdt.reportedMask.getLsbD t.toNat = true

/-- A heartbeat of the task whose later steps satisfy `P`. -/
def Owed (P : List IsrEvent → Prop) (history : List IsrEvent) (t : UInt8) : Prop :=
  ∃ before e after, history = before ++ e :: after ∧ e.Beats t ∧ P after

/-- No kick counted the heartbeat. -/
abbrev Uncounted : List IsrEvent → UInt8 → Prop := Owed fun after => ¬ Counted after

/-- The mask was not evaluated since the heartbeat. -/
abbrev Unsampled : List IsrEvent → UInt8 → Prop := Owed fun after => ∀ m, .sample m ∉ after

/-- A heartbeat in an interrupt is harmless when the main loop holds no copy of the mask, when
what it will store has the bit, or when nobody monitors the task. -/
def Harmless (s : IsrSystem) (t : UInt8) : Prop :=
  match s.mainLoop with
  | .idle | .loading _ => True
  | .kicking _ | .clearing _ => s.wdt.monitors t = false
  | .storing u loaded => (u.reported loaded).getLsbD t.toNat = true ∨ s.wdt.monitors t = false

/-- A step at which only harmless heartbeats interrupt. -/
def CarefulStep (s : IsrSystem) (e : IsrEvent) (s' : IsrSystem) : Prop :=
  IsrStep s e s' ∧ ∀ t b, e = .isrHeartbeat t b → Harmless s t

/-- No task is unregistered while a heartbeat of it waits to be counted. -/
def UnregistersCounted (history : List IsrEvent) : Prop :=
  ∀ before t after, history = before ++ .call (.unregisterTask t) :: after → ¬ Uncounted before t

/-- What is left of the main loop's call. -/
def MainLoop.rest (wdt : FwWdtSupervisor) : MainLoop → List IsrEvent
  | .idle => []
  | .kicking _ => [.kick, .clear]
  | .clearing _ => [.clear]
  | .loading u => [.load, .store u (wdt.monitors u.taskId)]
  | .storing u _ => [.store u (wdt.monitors u.taskId)]

variable {history : List IsrEvent} {e : IsrEvent} {t : UInt8} {s s' : IsrSystem}

/-- What is owed after one more step is its own heartbeat or was owed before. -/
theorem Owed.of_concat {P Q : List IsrEvent → Prop} (hP : ∀ after, P (after ++ [e]) → Q after)
    (h : Owed P (history ++ [e]) t) : e.Beats t ∨ Owed Q history t := by
  obtain ⟨before, f, after, heq, hbeats, hafter⟩ := h
  rcases concat_eq_append_cons heq with ⟨-, rfl, -⟩ | ⟨rest, rfl, hhistory⟩
  · exact Or.inl hbeats
  · exact Or.inr ⟨before, f, rest, hhistory, hbeats, hP rest hafter⟩

theorem Counted.concat {steps : List IsrEvent} (h : Counted steps) (e : IsrEvent) :
    Counted (steps ++ [e]) := by
  obtain ⟨before, millis, after, rfl, hkick⟩ := h
  exact ⟨before, millis, after ++ [e], by rw [List.append_assoc]; rfl,
    List.mem_append_left _ hkick⟩

/-- A kick counts every heartbeat that its evaluation saw. -/
theorem counted_kick {steps : List IsrEvent} {millis : UInt32} (h : .sample millis ∈ steps) :
    Counted (steps ++ [.kick]) := by
  obtain ⟨before, after, rfl⟩ := List.append_of_mem h
  exact ⟨before, millis, after ++ [.kick], by rw [List.append_assoc]; rfl,
    List.mem_append_right _ List.mem_cons_self⟩

/-- Without an evaluation of the mask nothing is counted. -/
theorem not_counted {steps : List IsrEvent} (h : ∀ m, .sample m ∉ steps) : ¬ Counted steps := by
  rintro ⟨before, m, after, rfl, -⟩
  exact h m (List.mem_append_right _ List.mem_cons_self)

theorem Uncounted.of_concat (h : Uncounted (history ++ [e]) t) :
    e.Beats t ∨ Uncounted history t :=
  Owed.of_concat (fun _ hno hcounted => hno (hcounted.concat e)) h

theorem Unsampled.of_concat (h : Unsampled (history ++ [e]) t) :
    e.Beats t ∨ Unsampled history t :=
  Owed.of_concat (fun _ hno m hmem => hno m (List.mem_append_left _ hmem)) h

/-- An uncounted heartbeat stays so until a kick. -/
theorem Uncounted.append {steps : List IsrEvent} (h : Uncounted history t)
    (hkick : .kick ∉ steps) : Uncounted (history ++ steps) t := by
  obtain ⟨before, e, after, rfl, hbeats, hno⟩ := h
  refine ⟨before, e, after ++ steps, by rw [List.append_assoc]; rfl, hbeats, ?_⟩
  rintro ⟨before', m, after', heq, hmem⟩
  rcases List.append_eq_append_iff.mp heq with ⟨rest, -, hsteps⟩ | ⟨rest, hafter, hrest⟩
  · rw [hsteps] at hkick
    exact hkick (List.mem_append_right _ (List.mem_cons_of_mem _ hmem))
  · cases rest with
    | nil =>
        rw [List.nil_append] at hrest
        rw [← hrest] at hkick
        exact hkick (List.mem_cons_of_mem _ hmem)
    | cons first rest =>
        obtain ⟨rfl, hlater⟩ := List.cons.inj hrest
        refine hno ⟨before', m, rest, hafter, ?_⟩
        rw [hlater] at hmem
        exact (List.mem_append.mp hmem).resolve_right hkick

/-- The history is kept, and so is what the main loop will store. -/
structure KeepsHeartbeats (s : IsrSystem) (history : List IsrEvent) : Prop where
  kicks : s.wdt.hwKickFn = true
  kept : ∀ t, Uncounted history t → s.wdt.reportedMask.getLsbD t.toNat = true
  copy : match s.mainLoop with
    | .idle => True
    | .kicking _ => ∀ t, ¬ Unsampled history t
    | .clearing _ => ∀ t, ¬ Uncounted history t
    | .loading u => u.taskId.toNat < fwWdtMaxTasks ∧
        ∀ t, u = .unregisterTask t → s.wdt.monitors t = false ∧ ¬ Uncounted history t
    | .storing u loaded => u.taskId.toNat < fwWdtMaxTasks ∧
        ∀ t, Uncounted history t → (u.reported loaded).getLsbD t.toNat = true

/-- What a call stores has the bits of the mask, but for that of a task it unregisters. -/
theorem getLsbD_reported {u : MaskUpdate} (hu : u.taskId.toNat < fwWdtMaxTasks)
    {loaded : BitVec 32} {t : UInt8} (hbit : loaded.getLsbD t.toNat = true)
    (hne : u ≠ .unregisterTask t) : (u.reported loaded).getLsbD t.toNat = true := by
  cases u with
  | heartbeat v => exact (getLsbD_setBit hu loaded t).mpr (Or.inl hbit)
  | registerTask v => exact (getLsbD_setBit hu loaded t).mpr (Or.inl hbit)
  | unregisterTask v =>
      refine (getLsbD_clearBit hu loaded t).mpr ⟨hbit, ?_⟩
      rintro rfl
      exact hne rfl

theorem heartbeat_registeredMask (wdt : FwWdtSupervisor) (t : UInt8) :
    (fwWdtHeartbeat wdt t).registeredMask = wdt.registeredMask := by
  rw [fwWdtHeartbeat]
  split <;> rfl

theorem heartbeat_monitors (wdt : FwWdtSupervisor) (t u : UInt8) :
    (fwWdtHeartbeat wdt t).monitors u = wdt.monitors u := by
  rw [FwWdtSupervisor.monitors, heartbeat_registeredMask]
  rfl

theorem heartbeat_hwKickFn (wdt : FwWdtSupervisor) (t : UInt8) :
    (fwWdtHeartbeat wdt t).hwKickFn = wdt.hwKickFn := by
  rw [fwWdtHeartbeat]
  split <;> rfl

/-- A heartbeat in an interrupt sets its bit and clears none. -/
theorem heartbeat_reported (wdt : FwWdtSupervisor) (t u : UInt8)
    (h : wdt.reportedMask.getLsbD u.toNat = true ∨ (t = u ∧ t.toNat < fwWdtMaxTasks)) :
    (fwWdtHeartbeat wdt t).reportedMask.getLsbD u.toNat = true := by
  rw [fwWdtHeartbeat]
  split
  · next ht =>
      rw [getLsbD_setBit ht]
      exact h.imp id And.left
  · next ht =>
      rcases h with hbit | ⟨-, hlt⟩
      · exact hbit
      · exact absurd hlt ht

/-- A heartbeat in an interrupt counts for its task, if that is monitored. -/
theorem beats_isrHeartbeat {b : Bool} {u : UInt8} (h : (IsrEvent.isrHeartbeat t b).Beats u) :
    t = u ∧ b = true := by
  rcases h with heq | heq
  · exact IsrEvent.isrHeartbeat.inj heq
  · cases heq

/-- Only a heartbeat in an interrupt and a store complete a heartbeat. -/
theorem not_beats (hisr : ∀ t b, e ≠ .isrHeartbeat t b) (hstore : ∀ u b, e ≠ .store u b)
    (t : UInt8) : ¬ e.Beats t := by
  rintro (heq | heq)
  · exact hisr t true heq
  · exact hstore (.heartbeat t) true heq

theorem KeepsHeartbeats.isrHeartbeat {wdt : FwWdtSupervisor} {pc : MainLoop}
    (h : KeepsHeartbeats ⟨wdt, pc⟩ history) (hsafe : Harmless ⟨wdt, pc⟩ t) :
    KeepsHeartbeats ⟨fwWdtHeartbeat wdt t, pc⟩
      (history ++ [.isrHeartbeat t (wdt.monitors t)]) := by
  have hunmonitored : wdt.monitors t = false →
      ∀ u, ¬ (IsrEvent.isrHeartbeat t (wdt.monitors t)).Beats u := by
    intro hno u hbeats
    rw [hno] at hbeats
    exact Bool.false_ne_true (beats_isrHeartbeat hbeats).2
  constructor
  · rw [heartbeat_hwKickFn]
    exact h.kicks
  · intro u hu
    apply heartbeat_reported
    rcases hu.of_concat with hbeats | hold
    · obtain ⟨rfl, hmonitored⟩ := beats_isrHeartbeat hbeats
      exact Or.inr ⟨rfl, getLsbD_lt hmonitored⟩
    · exact Or.inl (h.kept u hold)
  · have hcopy := h.copy
    cases pc with
    | idle => trivial
    | kicking now =>
        intro u hu
        rcases Unsampled.of_concat hu with hbeats | hold
        · exact hunmonitored hsafe u hbeats
        · exact hcopy u hold
    | clearing now =>
        intro u hu
        rcases hu.of_concat with hbeats | hold
        · exact hunmonitored hsafe u hbeats
        · exact hcopy u hold
    | loading v =>
        refine ⟨hcopy.1, ?_⟩
        intro u hv
        obtain ⟨hno, hold⟩ := hcopy.2 u hv
        refine ⟨(heartbeat_monitors wdt t u).trans hno, ?_⟩
        intro hu
        rcases hu.of_concat with hbeats | hback
        · obtain ⟨rfl, hmonitored⟩ := beats_isrHeartbeat hbeats
          rw [hno] at hmonitored
          exact Bool.false_ne_true hmonitored
        · exact hold hback
    | storing v loaded =>
        refine ⟨hcopy.1, ?_⟩
        intro u hu
        rcases hu.of_concat with hbeats | hold
        · rcases hsafe with hbit | hno
          · rw [← (beats_isrHeartbeat hbeats).1]
            exact hbit
          · exact absurd hbeats (hunmonitored hno u)
        · exact hcopy.2 u hold

/-- Every careful step keeps the heartbeats. -/
theorem KeepsHeartbeats.step (h : KeepsHeartbeats s history) (hstep : CarefulStep s e s')
    (hcounted : ∀ t, e = .call (.unregisterTask t) → ¬ Uncounted history t) :
    KeepsHeartbeats s' (history ++ [e]) := by
  obtain ⟨hstep, hsafe⟩ := hstep
  have hcopy := h.copy
  -- a step that completes no heartbeat owes nothing new
  have hold : (∀ t, ¬ e.Beats t) → ∀ t, Uncounted (history ++ [e]) t → Uncounted history t :=
    fun hno t ht => ht.of_concat.resolve_left (hno t)
  cases hstep with
  | isrHeartbeat wdt pc t => exact h.isrHeartbeat (hsafe t _ rfl)
  | sampleIdle wdt millis hstarving =>
      have hno : ∀ t, ¬ (IsrEvent.sample millis).Beats t := not_beats nofun nofun
      exact ⟨h.kicks, fun t ht => h.kept t (hold hno t ht), trivial⟩
  | sampleKick wdt millis hzero hkick =>
      have hno : ∀ t, ¬ (IsrEvent.sample millis).Beats t := not_beats nofun nofun
      refine ⟨h.kicks, fun t ht => h.kept t (hold hno t ht), ?_⟩
      intro t ht
      have hnever : ∀ after, (∀ m, IsrEvent.sample m ∉ after ++ [.sample millis]) → False :=
        fun after hall => hall millis (List.mem_append_right _ List.mem_cons_self)
      rcases Owed.of_concat (Q := fun _ => False) hnever ht with hbeats | ⟨_, _, _, _, _, hfalse⟩
      · exact hno t hbeats
      · exact hfalse
  | sampleClear wdt millis hzero hkick =>
      rw [h.kicks] at hkick
      cases hkick
  | kick wdt now =>
      have hno : ∀ t, ¬ IsrEvent.kick.Beats t := not_beats nofun nofun
      refine ⟨h.kicks, fun t ht => h.kept t (hold hno t ht), ?_⟩
      intro t ht
      have hsampled : ∀ after, ¬ Counted (after ++ [.kick]) → ∀ m, IsrEvent.sample m ∉ after :=
        fun after hcount m hmem => hcount (counted_kick hmem)
      rcases Owed.of_concat hsampled ht with hbeats | hback
      · exact hno t hbeats
      · exact hcopy t hback
  | clear wdt now =>
      have hno : ∀ t, ¬ IsrEvent.clear.Beats t := not_beats nofun nofun
      exact ⟨h.kicks, fun t ht => absurd (hold hno t ht) (hcopy t), trivial⟩
  | call wdt u hlt =>
      have hno : ∀ t, ¬ (IsrEvent.call u).Beats t := not_beats nofun nofun
      refine ⟨h.kicks, fun t ht => h.kept t (hold hno t ht), hlt, ?_⟩
      rintro t rfl
      refine ⟨Bool.eq_false_iff.mpr ?_, fun ht => hcounted t rfl (hold hno t ht)⟩
      intro hbit
      exact ((getLsbD_clearBit hlt wdt.registeredMask t).mp hbit).2 rfl
  | load wdt u =>
      have hno : ∀ t, ¬ IsrEvent.load.Beats t := not_beats nofun nofun
      have hkept : ∀ t, Uncounted (history ++ [.load]) t →
          wdt.reportedMask.getLsbD t.toNat = true := fun t ht => h.kept t (hold hno t ht)
      refine ⟨h.kicks, hkept, hcopy.1, ?_⟩
      intro t ht
      refine getLsbD_reported hcopy.1 (hkept t ht) ?_
      intro hu
      exact (hcopy.2 t hu).2 (hold hno t ht)
  | store wdt u loaded =>
      refine ⟨h.kicks, ?_, trivial⟩
      intro t ht
      rcases ht.of_concat with (heq | heq) | hback
      · cases heq
      · obtain ⟨rfl, -⟩ := IsrEvent.store.inj heq
        exact (getLsbD_setBit hcopy.1 loaded t).mpr (Or.inr rfl)
      · exact hcopy.2 t hback

/-- A heartbeat in an interrupt is uncounted before the mask is evaluated. -/
theorem uncounted_beat (history : List IsrEvent) {rest : List IsrEvent}
    (hsample : ∀ m, .sample m ∉ rest) :
    Uncounted (history ++ .isrHeartbeat t true :: rest) t :=
  ⟨history, _, rest, rfl, Or.inl rfl, not_counted hsample⟩

/-- An uncounted heartbeat whose bit is gone is lost. -/
theorem lost_of_bit (h : Uncounted history t)
    (hbit : s.wdt.reportedMask.getLsbD t.toNat = false) : ¬ HeartbeatsKept history s := by
  intro hkept
  obtain ⟨before, e, after, heq, hbeats, hno⟩ := h
  rcases hkept before e after t heq hbeats with hcount | hset
  · exact hno hcount
  · rw [hbit] at hset
    exact Bool.false_ne_true hset

/-- The main loop can always finish its call, and a heartbeat that was not harmless is lost
when it does. -/
theorem harmful_lost (history : List IsrEvent) (h : ¬ Harmless s t) :
    ∃ s', Run IsrStep s (.isrHeartbeat t true :: s.mainLoop.rest s.wdt) s' ∧
      ¬ HeartbeatsKept (history ++ .isrHeartbeat t true :: s.mainLoop.rest s.wdt) s' := by
  obtain ⟨wdt, pc⟩ := s
  have hbeat := Run.single (IsrStep.isrHeartbeat wdt pc t)
  cases pc with
  | idle => exact absurd trivial h
  | loading u => exact absurd trivial h
  | kicking now =>
      have hmonitored : wdt.monitors t = true := eq_true_of_ne_false h
      rw [hmonitored] at hbeat
      refine ⟨_, (hbeat.snoc (IsrStep.kick _ now)).snoc (IsrStep.clear _ now), ?_⟩
      refine lost_of_bit (uncounted_beat history fun m => ?_) BitVec.getLsbD_zero
      simp [MainLoop.rest]
  | clearing now =>
      have hmonitored : wdt.monitors t = true := eq_true_of_ne_false h
      rw [hmonitored] at hbeat
      refine ⟨_, hbeat.snoc (IsrStep.clear _ now), ?_⟩
      refine lost_of_bit (uncounted_beat history fun m => ?_) BitVec.getLsbD_zero
      simp [MainLoop.rest]
  | storing u loaded =>
      obtain ⟨hbit, hno⟩ := not_or.mp h
      have hmonitored : wdt.monitors t = true := eq_true_of_ne_false hno
      rw [hmonitored] at hbeat
      have hstore := IsrStep.store (fwWdtHeartbeat wdt t) u loaded
      rw [heartbeat_monitors] at hstore
      refine ⟨_, hbeat.snoc hstore, ?_⟩
      refine lost_of_bit (uncounted_beat history fun m => ?_) (eq_false_of_ne_true hbit)
      simp [MainLoop.rest]

/-- A task that is unregistered while a heartbeat of it waits to be counted loses it. -/
theorem unregister_lost {wdt : FwWdtSupervisor} (ht : t.toNat < fwWdtMaxTasks)
    (h : Uncounted history t) :
    ∃ s', Run IsrStep ⟨wdt, .idle⟩
        [.call (.unregisterTask t), .load, .store (.unregisterTask t) false] s' ∧
      ¬ HeartbeatsKept
        (history ++ [.call (.unregisterTask t), .load, .store (.unregisterTask t) false]) s' := by
  have hcleared : ∀ mask : BitVec 32, (mask &&& ~~~taskBit t).getLsbD t.toNat = false := fun mask =>
    Bool.eq_false_iff.mpr fun hbit => ((getLsbD_clearBit ht mask t).mp hbit).2 rfl
  have hrun := update_steps wdt (u := .unregisterTask t) ht
  rw [MaskUpdate.run, fwWdtUnregisterTask, if_neg (Nat.not_le.mpr ht)] at hrun
  have hmonitors : (wdt.registeredMask &&& ~~~taskBit t).getLsbD
      (MaskUpdate.unregisterTask t).taskId.toNat = false := hcleared _
  rw [FwWdtSupervisor.monitors, hmonitors] at hrun
  refine ⟨_, hrun, lost_of_bit (h.append ?_) (hcleared _)⟩
  simp

/-- With a `hw_kick_fn`, when interrupts report only at harmless moments and tasks are unregistered
only when their heartbeats have been counted, no heartbeat is lost. A heartbeat at any other moment,
and one that waits when its task is unregistered, is lost as soon as the main loop finishes its
call. -/
theorem fwWdtHeartbeat_kept {s₀ s : IsrSystem} {history : List IsrEvent}
    (hidle : s₀.mainLoop = .idle) (hkick : s₀.wdt.hwKickFn = true)
    (hrun : Run CarefulStep s₀ history s) (hcounted : UnregistersCounted history) :
    HeartbeatsKept history s ∧
      (∀ t, ¬ Harmless s t →
        ∃ s', Run IsrStep s (.isrHeartbeat t true :: s.mainLoop.rest s.wdt) s' ∧
          ¬ HeartbeatsKept (history ++ .isrHeartbeat t true :: s.mainLoop.rest s.wdt) s') ∧
      ∀ t : UInt8, s.mainLoop = .idle → t.toNat < fwWdtMaxTasks → Uncounted history t →
        ∃ s', Run IsrStep s
            [.call (.unregisterTask t), .load, .store (.unregisterTask t) false] s' ∧
          ¬ HeartbeatsKept
            (history ++ [.call (.unregisterTask t), .load, .store (.unregisterTask t) false])
            s' := by
  have hstart : KeepsHeartbeats s₀ [] := by
    have hnone : ∀ t, ¬ Uncounted [] t := by
      rintro t ⟨before, e, after, heq, -⟩
      exact absurd heq.symm (List.append_ne_nil_of_right_ne_nil _ (List.cons_ne_nil _ _))
    refine ⟨hkick, fun t ht => absurd ht (hnone t), ?_⟩
    rw [hidle]
    trivial
  have hkeeps : UnregistersCounted history → KeepsHeartbeats s history := by
    refine hrun.invariant (fun s history => UnregistersCounted history → KeepsHeartbeats s history)
      (fun _ => hstart) ?_
    intro s history e s' ih hstep hcounted
    have hbefore : UnregistersCounted history := by
      intro before t after heq
      refine hcounted before t (after ++ [e]) ?_
      rw [heq, List.append_assoc]
      rfl
    refine (ih hbefore).step hstep ?_
    rintro t rfl
    exact hcounted history t [] rfl
  refine ⟨?_, fun t ht => harmful_lost history ht, ?_⟩
  · intro before e after t heq hbeats
    by_contra hlost
    obtain ⟨hcount, hbit⟩ := not_or.mp hlost
    exact hbit ((hkeeps hcounted).kept t ⟨before, e, after, heq, hbeats, hcount⟩)
  · intro t hnow ht huncounted
    obtain ⟨wdt, pc⟩ := s
    obtain rfl : pc = .idle := hnow
    exact unregister_lost ht huncounted

/-- A supervisor that monitors tasks 1 and 2, which have not reported. -/
def watchedTasks : FwWdtSupervisor := ⟨6, 0, 1000, 0, true, true⟩

/-- Task 2 reports from interrupts in front of the load and in front of the store of a heartbeat of
the main loop. -/
def sampleInterrupts : List IsrEvent :=
  [.call (.heartbeat 1), .isrHeartbeat 2 true, .load, .isrHeartbeat 2 true,
    .store (.heartbeat 1) true]

theorem sampleInterrupts_run :
    Run CarefulStep ⟨watchedTasks, .idle⟩ sampleInterrupts
      ⟨⟨6, 6, 1000, 0, true, true⟩, .idle⟩ := by
  have hcareful : ∀ {s e s'}, IsrStep s e s' → (∀ t b, e ≠ .isrHeartbeat t b) →
      CarefulStep s e s' := fun hstep hno => ⟨hstep, fun t b heq => absurd heq (hno t b)⟩
  have hcall := Run.single (hcareful (IsrStep.call watchedTasks (.heartbeat 1) (by decide))
    fun _ _ => IsrEvent.noConfusion)
  have hfirst := hcall.snoc ⟨IsrStep.isrHeartbeat watchedTasks (.loading (.heartbeat 1)) 2,
    fun _ _ _ => trivial⟩
  have hload := hfirst.snoc (hcareful (IsrStep.load _ _) fun _ _ => IsrEvent.noConfusion)
  have hsecond := hload.snoc ⟨IsrStep.isrHeartbeat _ (.storing (.heartbeat 1) 4) 2, by
    intro t b heq
    obtain ⟨rfl, -⟩ := IsrEvent.isrHeartbeat.inj heq
    exact Or.inl (by decide)⟩
  exact hsecond.snoc (hcareful (IsrStep.store _ _ _) fun _ _ => IsrEvent.noConfusion)

theorem fwWdtHeartbeat_kept_sample :
    HeartbeatsKept sampleInterrupts ⟨⟨6, 6, 1000, 0, true, true⟩, .idle⟩ := by
  have hidle : (⟨watchedTasks, .idle⟩ : IsrSystem).mainLoop = .idle := rfl
  refine (fwWdtHeartbeat_kept hidle rfl sampleInterrupts_run ?_).1
  intro before t after heq
  have hmem : IsrEvent.call (.unregisterTask t) ∈ sampleInterrupts := by
    rw [heq]
    exact List.mem_append_right _ List.mem_cons_self
  simp [sampleInterrupts] at hmem

/-- The main loop loads the mask for task 1, task 2 reports from an interrupt, and the store
of the main loop overwrites its bit. -/
theorem fwWdtHeartbeat_loses :
    ∃ s, Run IsrStep ⟨watchedTasks, .idle⟩
        [.call (.heartbeat 1), .load, .isrHeartbeat 2 true, .store (.heartbeat 1) true] s ∧
      s.wdt.reportedMask = 2 ∧
      ¬ HeartbeatsKept
        [.call (.heartbeat 1), .load, .isrHeartbeat 2 true, .store (.heartbeat 1) true] s := by
  have hcall := Run.single (IsrStep.call watchedTasks (.heartbeat 1) (by decide))
  have hload := hcall.snoc (IsrStep.load _ (.heartbeat 1))
  have hbeat := hload.snoc (IsrStep.isrHeartbeat _ (.storing (.heartbeat 1) 0) 2)
  have hstore := hbeat.snoc (IsrStep.store _ (.heartbeat 1) 0)
  refine ⟨_, hstore, rfl, ?_⟩
  refine lost_of_bit (t := 2) (uncounted_beat [.call (.heartbeat 1), .load] ?_) (by decide)
  intro m
  simp

end Heartbeats

end ZeroEmbedded.Wdt
