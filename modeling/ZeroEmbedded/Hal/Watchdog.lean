import ZeroEmbedded.Types
import ZeroEmbedded.Foundation.Runs

/-!
# The watchdog supervisor

The functions of `watchdog.c` with the clock reading as an argument. A call of
`fw_wdt_service` reports the callbacks that it invoked. The two bit masks are
compared with the history of a run: who is registered, and who has reported
since the last call of `hw_kick_fn`.

## Implementation notes

Without a `hw_kick_fn` the branch of the source that kicks clears the mask and
takes the time all the same. The masks then say who has reported since that
branch was last taken, and not since a kick.
-/

namespace ZeroEmbedded.Wdt

open Foundation

/-- `FW_WDT_MAX_TASKS`. -/
def fwWdtMaxTasks : Nat := 32

/-- `fw_wdt_supervisor_t`; of a callback it matters whether it is set. -/
structure FwWdtSupervisor where
  registeredMask : BitVec 32
  reportedMask : BitVec 32
  timeoutMs : UInt32
  lastKickMs : UInt32
  hwKickFn : Bool
  faultFn : Bool

/-- `1U << task_id`. -/
def taskBit (taskId : UInt8) : BitVec 32 := 1#32 <<< taskId.toNat

def fwWdtInit (wdt : FwWdtSupervisor) (timeoutMs : UInt32) (hwKickFn faultFn : Bool)
    (millis : UInt32) : FwStatus × FwWdtSupervisor :=
  if timeoutMs = 0 then (.errInvalidArg, wdt)
  else (.ok, { registeredMask := 0, reportedMask := 0, timeoutMs := timeoutMs,
               lastKickMs := millis, hwKickFn := hwKickFn, faultFn := faultFn })

def fwWdtRegisterTask (wdt : FwWdtSupervisor) (taskId : UInt8) : FwStatus × FwWdtSupervisor :=
  if taskId.toNat ≥ fwWdtMaxTasks then (.errInvalidArg, wdt)
  else (.ok, { wdt with
    registeredMask := wdt.registeredMask ||| taskBit taskId
    reportedMask := wdt.reportedMask ||| taskBit taskId })

def fwWdtUnregisterTask (wdt : FwWdtSupervisor) (taskId : UInt8) : FwStatus × FwWdtSupervisor :=
  if taskId.toNat ≥ fwWdtMaxTasks then (.errInvalidArg, wdt)
  else (.ok, { wdt with
    registeredMask := wdt.registeredMask &&& ~~~taskBit taskId
    reportedMask := wdt.reportedMask &&& ~~~taskBit taskId })

def fwWdtHeartbeat (wdt : FwWdtSupervisor) (taskId : UInt8) : FwWdtSupervisor :=
  if taskId.toNat < fwWdtMaxTasks then
    { wdt with reportedMask := wdt.reportedMask ||| taskBit taskId }
  else wdt

def fwWdtGetStarvingTasks (wdt : FwWdtSupervisor) : BitVec 32 :=
  wdt.registeredMask &&& ~~~wdt.reportedMask

/-- What a call of `fw_wdt_service` did: its result, whether it called `hw_kick_fn`, and the
argument of a call of `fault_fn`. -/
structure ServiceReply where
  result : Bool
  kicked : Bool
  fault : Option (BitVec 32)
  deriving DecidableEq

def fwWdtService (wdt : FwWdtSupervisor) (millis : UInt32) : ServiceReply × FwWdtSupervisor :=
  let starving := fwWdtGetStarvingTasks wdt
  let now := millis
  if starving = 0 then
    (⟨true, wdt.hwKickFn, none⟩, { wdt with reportedMask := 0, lastKickMs := now })
  else if now - wdt.lastKickMs ≥ wdt.timeoutMs then
    (⟨false, false, if wdt.faultFn then some starving else none⟩, wdt)
  else (⟨true, false, none⟩, wdt)

/-- A call on the supervisor; a service call carries the reading of the clock. -/
inductive WdtCall
  | registerTask (taskId : UInt8)
  | unregisterTask (taskId : UInt8)
  | heartbeat (taskId : UInt8)
  | service (millis : UInt32)
  deriving DecidableEq

/-- What a call returns. -/
inductive WdtReply
  | status (st : FwStatus)
  | done
  | serviced (reply : ServiceReply)
  deriving DecidableEq

def FwWdtSupervisor.call (wdt : FwWdtSupervisor) : WdtCall → WdtReply × FwWdtSupervisor
  | .registerTask taskId => ((fwWdtRegisterTask wdt taskId).map .status id)
  | .unregisterTask taskId => ((fwWdtUnregisterTask wdt taskId).map .status id)
  | .heartbeat taskId => (.done, fwWdtHeartbeat wdt taskId)
  | .service millis => ((fwWdtService wdt millis).map .serviced id)

/-- A call of a run with its reply. -/
structure WdtEvent where
  call : WdtCall
  reply : WdtReply
  deriving DecidableEq

/-- One call. -/
def Step (wdt : FwWdtSupervisor) (e : WdtEvent) (wdt' : FwWdtSupervisor) : Prop :=
  wdt.call e.call = (e.reply, wdt')

section History

/-- The call called `hw_kick_fn`. -/
def WdtEvent.kicked (e : WdtEvent) : Bool :=
  match e.reply with
  | .serviced reply => reply.kicked
  | _ => false

/-- The task was registered and has not been unregistered since. -/
def Registered (history : List WdtEvent) (taskId : UInt8) : Prop :=
  ∃ before after, history = before ++ ⟨.registerTask taskId, .status .ok⟩ :: after ∧
    ∀ e ∈ after, e.call ≠ .unregisterTask taskId

/-- The calls since the last kick. -/
def sinceKick (history : List WdtEvent) : List WdtEvent :=
  history.foldl (fun window e => if e.kicked then [] else window ++ [e]) []

/-- The task has reported or been registered since the last kick. -/
def ReportedSince (history : List WdtEvent) (taskId : UInt8) : Prop :=
  ∃ e ∈ sinceKick history, e.call = .heartbeat taskId ∨ e.call = .registerTask taskId

/-- The clock reading of the last kick, or of `fw_wdt_init`. -/
def kickTime (start : UInt32) (history : List WdtEvent) : UInt32 :=
  history.foldl (fun time e =>
    match e.call with
    | .service millis => if e.kicked then millis else time
    | _ => time) start

/-- A registered task that has not reported since the last kick. -/
def Starving (history : List WdtEvent) (taskId : UInt8) : Prop :=
  Registered history taskId ∧ ¬ ReportedSince history taskId

theorem registered_nil (t : UInt8) : ¬ Registered [] t := by
  rintro ⟨before, after, hnil, -⟩
  exact absurd hnil.symm (List.append_ne_nil_of_right_ne_nil _ (List.cons_ne_nil _ _))

/-- One more call registers its task, keeps the others, or unregisters its task. -/
theorem registered_concat (history : List WdtEvent) (e : WdtEvent) (t : UInt8) :
    Registered (history ++ [e]) t ↔ e = ⟨.registerTask t, .status .ok⟩ ∨
      (Registered history t ∧ e.call ≠ .unregisterTask t) := by
  constructor
  · rintro ⟨before, after, heq, hafter⟩
    rcases concat_eq_append_cons heq with ⟨-, hcall, -⟩ | ⟨rest, rfl, hhistory⟩
    · exact Or.inl hcall.symm
    · right
      have hmem : ∀ f ∈ rest, f.call ≠ .unregisterTask t := fun f hf =>
        hafter f (List.mem_append_left _ hf)
      exact ⟨⟨before, rest, hhistory, hmem⟩, hafter e (List.mem_append_right _ List.mem_cons_self)⟩
  · rintro (rfl | ⟨⟨before, after, rfl, hafter⟩, he⟩)
    · exact ⟨history, [], rfl, fun f hf => absurd hf List.not_mem_nil⟩
    · refine ⟨before, after ++ [e], by rw [List.append_assoc]; rfl, ?_⟩
      intro f hf
      rcases List.mem_append.mp hf with hf | hf
      · exact hafter f hf
      · rw [List.mem_singleton.mp hf]
        exact he

theorem sinceKick_concat (history : List WdtEvent) (e : WdtEvent) :
    sinceKick (history ++ [e]) = if e.kicked then [] else sinceKick history ++ [e] := by
  rw [sinceKick, List.foldl_append]
  rfl

theorem kickTime_concat (start : UInt32) (history : List WdtEvent) (e : WdtEvent) :
    kickTime start (history ++ [e]) =
      match e.call with
      | .service millis => if e.kicked then millis else kickTime start history
      | _ => kickTime start history := by
  rw [kickTime, List.foldl_append]
  rfl

theorem reportedSince_concat {history : List WdtEvent} {e : WdtEvent} (h : e.kicked = false)
    (t : UInt8) : ReportedSince (history ++ [e]) t ↔
      ReportedSince history t ∨ e.call = .heartbeat t ∨ e.call = .registerTask t := by
  rw [ReportedSince, sinceKick_concat, h]
  simp only [Bool.false_eq_true, if_false, List.mem_append, List.mem_singleton]
  constructor
  · rintro ⟨f, hf | rfl, hcall⟩
    · exact Or.inl ⟨f, hf, hcall⟩
    · exact Or.inr hcall
  · rintro (⟨f, hf, hcall⟩ | hcall)
    · exact ⟨f, Or.inl hf, hcall⟩
    · exact ⟨e, Or.inr rfl, hcall⟩

theorem reportedSince_kicked {history : List WdtEvent} {e : WdtEvent} (h : e.kicked = true)
    (t : UInt8) : ¬ ReportedSince (history ++ [e]) t := by
  rintro ⟨f, hf, -⟩
  rw [sinceKick_concat, h] at hf
  exact absurd hf List.not_mem_nil

end History

section Masks

theorem getLsbD_taskBit_of_ne {t u : UInt8} (h : t ≠ u) :
    (taskBit t).getLsbD u.toNat = false := by
  have hne : ¬ t.toNat = u.toNat := fun heq => h (UInt8.toNat_inj.mp heq)
  rw [taskBit, ← BitVec.twoPow_eq, BitVec.getLsbD_twoPow]
  simp [hne]

theorem getLsbD_taskBit {t : UInt8} (ht : t.toNat < fwWdtMaxTasks) (u : UInt8) :
    (taskBit t).getLsbD u.toNat = decide (t = u) := by
  by_cases h : t = u
  · rw [fwWdtMaxTasks] at ht
    rw [taskBit, ← BitVec.twoPow_eq, BitVec.getLsbD_twoPow]
    simp [← h, ht]
  · rw [getLsbD_taskBit_of_ne h, decide_eq_false h]

theorem getLsbD_lt {mask : BitVec 32} {t : UInt8} (h : mask.getLsbD t.toNat = true) :
    t.toNat < fwWdtMaxTasks := BitVec.lt_of_getLsbD h

theorem getLsbD_setBit {t : UInt8} (ht : t.toNat < fwWdtMaxTasks) (mask : BitVec 32) (u : UInt8) :
    (mask ||| taskBit t).getLsbD u.toNat = true ↔ mask.getLsbD u.toNat = true ∨ t = u := by
  rw [BitVec.getLsbD_or, getLsbD_taskBit ht, Bool.or_eq_true, decide_eq_true_eq]

theorem getLsbD_clearBit {t : UInt8} (ht : t.toNat < fwWdtMaxTasks) (mask : BitVec 32)
    (u : UInt8) :
    (mask &&& ~~~taskBit t).getLsbD u.toNat = true ↔ mask.getLsbD u.toNat = true ∧ t ≠ u := by
  rw [BitVec.getLsbD_and, BitVec.getLsbD_not, getLsbD_taskBit ht]
  constructor
  · intro hand
    obtain ⟨hbit, hnot⟩ := Bool.and_eq_true_iff.mp hand
    exact ⟨hbit, by simpa using (Bool.and_eq_true_iff.mp hnot).2⟩
  · rintro ⟨hbit, hne⟩
    have hu : u.toNat < 32 := getLsbD_lt hbit
    rw [hbit]
    simp [hu, hne]

/-- A mask without task bits is zero. -/
theorem mask_eq_zero_iff (mask : BitVec 32) :
    mask = 0 ↔ ∀ t : UInt8, mask.getLsbD t.toNat = false := by
  constructor
  · rintro rfl t
    exact BitVec.getLsbD_zero
  · intro h
    apply BitVec.eq_of_getLsbD_eq
    intro i hi
    have hbit := h (UInt8.ofNat i)
    rw [UInt8.toNat_ofNat', Nat.mod_eq_of_lt (Nat.lt_trans hi (by decide))] at hbit
    rw [hbit]
    exact BitVec.getLsbD_zero.symm

end Masks

section Runs

/-- The masks and the time stamp of the supervisor say what its history says. -/
structure Tracks (start timeout : UInt32) (wdt : FwWdtSupervisor) (history : List WdtEvent) :
    Prop where
  registered : ∀ t : UInt8, wdt.registeredMask.getLsbD t.toNat = true ↔ Registered history t
  reported : ∀ t : UInt8, Registered history t →
    (wdt.reportedMask.getLsbD t.toNat = true ↔ ReportedSince history t)
  lastKick : wdt.lastKickMs = kickTime start history
  timeout_eq : wdt.timeoutMs = timeout
  kicks : wdt.hwKickFn = true

variable {start timeout : UInt32} {wdt wdt' : FwWdtSupervisor} {history : List WdtEvent}

theorem Tracks.lt (h : Tracks start timeout wdt history) {t : UInt8} (ht : Registered history t) :
    t.toNat < fwWdtMaxTasks := getLsbD_lt ((h.registered t).mpr ht)

/-- The starving mask has the bits of the starving tasks. -/
theorem Tracks.starving_iff (h : Tracks start timeout wdt history) (t : UInt8) :
    (fwWdtGetStarvingTasks wdt).getLsbD t.toNat = true ↔ Starving history t := by
  have hmask : (fwWdtGetStarvingTasks wdt).getLsbD t.toNat = true ↔
      wdt.registeredMask.getLsbD t.toNat = true ∧ ¬ wdt.reportedMask.getLsbD t.toNat = true := by
    rw [fwWdtGetStarvingTasks, BitVec.getLsbD_and, BitVec.getLsbD_not, Bool.and_eq_true]
    constructor
    · rintro ⟨hreg, hrep⟩
      exact ⟨hreg, by simpa using (Bool.and_eq_true_iff.mp hrep).2⟩
    · rintro ⟨hreg, hrep⟩
      refine ⟨hreg, ?_⟩
      have hlt : t.toNat < 32 := getLsbD_lt hreg
      rw [eq_false_of_ne_true hrep]
      simp [hlt]
  rw [hmask, h.registered t, Starving]
  constructor
  · rintro ⟨hreg, hrep⟩
    exact ⟨hreg, fun hsince => hrep ((h.reported t hreg).mpr hsince)⟩
  · rintro ⟨hreg, hrep⟩
    exact ⟨hreg, fun hbit => hrep ((h.reported t hreg).mp hbit)⟩

theorem Tracks.starving_eq_zero_iff (h : Tracks start timeout wdt history) :
    fwWdtGetStarvingTasks wdt = 0 ↔ ∀ t, Registered history t → ReportedSince history t := by
  rw [mask_eq_zero_iff]
  constructor
  · intro hzero t ht
    by_contra hno
    have hbit := (h.starving_iff t).mpr ⟨ht, hno⟩
    rw [hzero t] at hbit
    exact Bool.false_ne_true hbit
  · intro hall t
    by_contra hbit
    obtain ⟨hreg, hno⟩ := (h.starving_iff t).mp (eq_true_of_ne_false hbit)
    exact hno (hall t hreg)

/-- A call that only sets or clears the bits of its task keeps the masks in step. -/
theorem Tracks.step_masks (h : Tracks start timeout wdt history) {e : WdtEvent}
    (hkicked : e.kicked = false) (hcall : ∀ millis, e.call ≠ .service millis)
    (hregistered : ∀ t : UInt8, wdt'.registeredMask.getLsbD t.toNat = true ↔
      e = ⟨.registerTask t, .status .ok⟩ ∨
        (wdt.registeredMask.getLsbD t.toNat = true ∧ e.call ≠ .unregisterTask t))
    (hreported : ∀ t : UInt8, t.toNat < fwWdtMaxTasks → e.call ≠ .unregisterTask t →
      (wdt'.reportedMask.getLsbD t.toNat = true ↔ wdt.reportedMask.getLsbD t.toNat = true ∨
        e.call = .heartbeat t ∨ e.call = .registerTask t))
    (hkept : wdt'.lastKickMs = wdt.lastKickMs ∧ wdt'.timeoutMs = wdt.timeoutMs ∧
      wdt'.hwKickFn = wdt.hwKickFn) :
    Tracks start timeout wdt' (history ++ [e]) where
  registered := by
    intro t
    rw [hregistered t, registered_concat, h.registered t]
  reported := by
    intro t ht
    have hlt : t.toNat < fwWdtMaxTasks := by
      apply getLsbD_lt
      rw [hregistered t, h.registered t, ← registered_concat]
      exact ht
    rw [reportedSince_concat hkicked]
    rcases (registered_concat history e t).mp ht with rfl | ⟨hreg, hun⟩
    · rw [hreported t hlt (fun heq => WdtCall.noConfusion heq)]
      simp
    · rw [hreported t hlt hun, h.reported t hreg]
  lastKick := by
    rw [hkept.1, h.lastKick, kickTime_concat]
    split
    · next millis heq => exact absurd heq (hcall millis)
    · rfl
  timeout_eq := hkept.2.1.trans h.timeout_eq
  kicks := hkept.2.2.trans h.kicks

theorem Tracks.registerTask (h : Tracks start timeout wdt history) (t : UInt8) :
    Tracks start timeout (fwWdtRegisterTask wdt t).2
      (history ++ [⟨.registerTask t, .status (fwWdtRegisterTask wdt t).1⟩]) := by
  by_cases ht : t.toNat ≥ fwWdtMaxTasks
  · rw [fwWdtRegisterTask, if_pos ht]
    refine h.step_masks rfl (fun _ => by simp) ?_ ?_ ⟨rfl, rfl, rfl⟩
    · intro u
      simp
    · intro u hu _
      have hne : t ≠ u := fun heq => by rw [heq] at ht; omega
      simp [hne]
  · rw [fwWdtRegisterTask, if_neg ht]
    refine h.step_masks rfl (fun _ => by simp) ?_ ?_ ⟨rfl, rfl, rfl⟩
    · intro u
      rw [getLsbD_setBit (Nat.not_le.mp ht)]
      simp [or_comm]
    · intro u _ _
      rw [getLsbD_setBit (Nat.not_le.mp ht)]
      simp

theorem Tracks.unregisterTask (h : Tracks start timeout wdt history) (t : UInt8) :
    Tracks start timeout (fwWdtUnregisterTask wdt t).2
      (history ++ [⟨.unregisterTask t, .status (fwWdtUnregisterTask wdt t).1⟩]) := by
  by_cases ht : t.toNat ≥ fwWdtMaxTasks
  · rw [fwWdtUnregisterTask, if_pos ht]
    refine h.step_masks rfl (fun _ => by simp) ?_ ?_ ⟨rfl, rfl, rfl⟩
    · intro u
      have hne : wdt.registeredMask.getLsbD u.toNat = true → t ≠ u := by
        rintro hu rfl
        exact absurd (getLsbD_lt hu) (Nat.not_lt.mpr ht)
      simpa using hne
    · intro u _ _
      simp
  · rw [fwWdtUnregisterTask, if_neg ht]
    refine h.step_masks rfl (fun _ => by simp) ?_ ?_ ⟨rfl, rfl, rfl⟩
    · intro u
      rw [getLsbD_clearBit (Nat.not_le.mp ht)]
      simp
    · intro u _ hun
      have hne : t ≠ u := fun heq => hun (by rw [heq])
      rw [getLsbD_clearBit (Nat.not_le.mp ht)]
      simp [hne]

theorem Tracks.heartbeat (h : Tracks start timeout wdt history) (t : UInt8) :
    Tracks start timeout (fwWdtHeartbeat wdt t) (history ++ [⟨.heartbeat t, .done⟩]) := by
  by_cases ht : t.toNat < fwWdtMaxTasks
  · rw [fwWdtHeartbeat, if_pos ht]
    refine h.step_masks rfl (fun _ => by simp) ?_ ?_ ⟨rfl, rfl, rfl⟩
    · intro u
      simp
    · intro u _ _
      rw [getLsbD_setBit ht]
      simp
  · rw [fwWdtHeartbeat, if_neg ht]
    refine h.step_masks rfl (fun _ => by simp) ?_ ?_ ⟨rfl, rfl, rfl⟩
    · intro u
      simp
    · intro u hu _
      have hne : t ≠ u := fun heq => ht (by rw [heq]; exact hu)
      simp [hne]

/-- A service call kicks or changes nothing. -/
theorem Tracks.service (h : Tracks start timeout wdt history) (millis : UInt32) :
    Tracks start timeout (fwWdtService wdt millis).2
      (history ++ [⟨.service millis, .serviced (fwWdtService wdt millis).1⟩]) := by
  have hkeeps : ∀ e : WdtEvent, e.call = .service millis → e.kicked = false →
      Tracks start timeout wdt (history ++ [e]) := by
    intro e hcall hkicked
    constructor
    · intro t
      rw [h.registered t, registered_concat, hcall]
      constructor
      · intro hreg
        exact Or.inr ⟨hreg, fun heq => WdtCall.noConfusion heq⟩
      · rintro (rfl | ⟨hreg, -⟩)
        · exact WdtCall.noConfusion hcall
        · exact hreg
    · intro t ht
      rw [reportedSince_concat hkicked, hcall]
      rcases (registered_concat history e t).mp ht with rfl | ⟨hreg, -⟩
      · exact WdtCall.noConfusion hcall
      · rw [h.reported t hreg]
        simp
    · rw [h.lastKick, kickTime_concat, hcall]
      simp [hkicked]
    · exact h.timeout_eq
    · exact h.kicks
  rw [fwWdtService, h.kicks]
  split
  · constructor
    · intro t
      rw [registered_concat, ← h.registered t]
      simp
    · intro t _
      have hno : ¬ ReportedSince
          (history ++ [⟨.service millis, .serviced ⟨true, true, none⟩⟩]) t :=
        reportedSince_kicked rfl t
      exact ⟨fun hbit => absurd hbit (by simp), fun hsince => absurd hsince hno⟩
    · rw [kickTime_concat]
      rfl
    · exact h.timeout_eq
    · exact rfl
  · split
    · exact hkeeps _ rfl rfl
    · exact hkeeps _ rfl rfl

/-- Every call keeps the supervisor in step with its history. -/
theorem Tracks.step (h : Tracks start timeout wdt history) {e : WdtEvent}
    (hstep : Step wdt e wdt') : Tracks start timeout wdt' (history ++ [e]) := by
  obtain ⟨call, reply⟩ := e
  have hcall : wdt.call call = (reply, wdt') := hstep
  obtain rfl : (wdt.call call).1 = reply := congrArg Prod.fst hcall
  obtain rfl : (wdt.call call).2 = wdt' := congrArg Prod.snd hcall
  cases call with
  | registerTask t => exact h.registerTask t
  | unregisterTask t => exact h.unregisterTask t
  | heartbeat t => exact h.heartbeat t
  | service millis => exact h.service millis

/-- After `fw_wdt_init` nobody is registered. -/
theorem fwWdtInit_tracks {faultFn : Bool}
    (hinit : fwWdtInit wdt timeout true faultFn start = (.ok, wdt')) :
    Tracks start timeout wdt' [] := by
  rw [fwWdtInit] at hinit
  split at hinit
  · cases hinit
  · obtain ⟨-, rfl⟩ := Prod.mk.inj hinit
    refine ⟨fun t => ?_, fun t ht => absurd ht (registered_nil t), rfl, rfl, rfl⟩
    exact ⟨fun hbit => absurd hbit (by simp), fun ht => absurd ht (registered_nil t)⟩

/-- What a service call may do behind a history: it kicks only when every registered task has
reported, faults with exactly the starving tasks, and fails exactly when they ran out of time. -/
structure Supervises (start timeout : UInt32) (history : List WdtEvent) (millis : UInt32)
    (reply : ServiceReply) : Prop where
  kick : reply.kicked = true → ∀ t, Registered history t → ReportedSince history t
  fault : ∀ mask, reply.fault = some mask →
    (∀ t : UInt8, mask.getLsbD t.toNat = true ↔ Starving history t) ∧
      timeout ≤ millis - kickTime start history
  fails : reply.result = false ↔
    (∃ t, Starving history t) ∧ timeout ≤ millis - kickTime start history

/-- Whatever calls came before, a service call of a supervisor with a `hw_kick_fn` supervises the
tasks. -/
theorem fwWdtService_supervises {start timeout : UInt32} {faultFn : Bool}
    {garbage wdt₀ wdt : FwWdtSupervisor} {history : List WdtEvent}
    (hinit : fwWdtInit garbage timeout true faultFn start = (.ok, wdt₀))
    (hrun : Run Step wdt₀ history wdt) (millis : UInt32) :
    Supervises start timeout history millis (fwWdtService wdt millis).1 := by
  have h : Tracks start timeout wdt history :=
    hrun.invariant (Tracks start timeout) (fwWdtInit_tracks hinit) fun _ _ _ _ ht hstep =>
      ht.step hstep
  have hsome : (∃ t, Starving history t) ↔ ¬ fwWdtGetStarvingTasks wdt = 0 := by
    rw [h.starving_eq_zero_iff]
    simp only [Starving, not_forall, exists_prop]
  rw [fwWdtService, h.timeout_eq, h.lastKick]
  split
  · next hzero =>
      refine ⟨fun _ => h.starving_eq_zero_iff.mp hzero, fun mask hmask => ?_, ?_⟩
      · cases hmask
      · rw [hsome]
        simp [hzero]
  · next hstarving =>
      split
      · next helapsed =>
          refine ⟨fun hkick => absurd hkick Bool.false_ne_true, fun mask hmask => ?_, ?_⟩
          · dsimp only at hmask
            split at hmask
            · obtain rfl := Option.some.inj hmask
              exact ⟨h.starving_iff, helapsed⟩
            · cases hmask
          · exact ⟨fun _ => ⟨hsome.mpr hstarving, helapsed⟩, fun _ => rfl⟩
      · next hearly =>
          refine ⟨fun hkick => absurd hkick Bool.false_ne_true, fun mask hmask => ?_, ?_⟩
          · cases hmask
          · exact ⟨fun hfalse => absurd hfalse.symm Bool.false_ne_true,
              fun hlate => absurd hlate.2 hearly⟩

/-- A supervisor with a timeout of one second, at time 0. -/
def sampleWdt : FwWdtSupervisor := ⟨0, 0, 1000, 0, true, true⟩

/-- Task 3 is registered and a first service call kicks. -/
def sampleHistory : List WdtEvent :=
  [⟨.registerTask 3, .status .ok⟩, ⟨.service 10, .serviced ⟨true, true, none⟩⟩]

theorem sampleHistory_run : Run Step sampleWdt sampleHistory ⟨8, 0, 1000, 10, true, true⟩ := by
  have hregister : Step sampleWdt ⟨.registerTask 3, .status .ok⟩ ⟨8, 8, 1000, 0, true, true⟩ := rfl
  have hservice : Step ⟨8, 8, 1000, 0, true, true⟩
      ⟨.service 10, .serviced ⟨true, true, none⟩⟩ ⟨8, 0, 1000, 10, true, true⟩ := rfl
  exact (Run.single hregister).snoc hservice

/-- A second later the task has not reported, and the service call faults. -/
theorem fwWdtService_supervises_sample :
    fwWdtService ⟨8, 0, 1000, 10, true, true⟩ 1010 =
        (⟨false, false, some 8⟩, ⟨8, 0, 1000, 10, true, true⟩) ∧
      Supervises 0 1000 sampleHistory 1010
        (fwWdtService ⟨8, 0, 1000, 10, true, true⟩ 1010).1 :=
  ⟨rfl, fwWdtService_supervises
    (show fwWdtInit sampleWdt 1000 true true 0 = (.ok, sampleWdt) from rfl) sampleHistory_run 1010⟩

/-- Without a `hw_kick_fn` a task that was registered, and no kick since, is reported as starving a
second after a service call. -/
theorem fwWdtService_faults_unkicked :
    ¬ ∀ (start timeout : UInt32) (hwKickFn faultFn : Bool) (garbage wdt₀ wdt : FwWdtSupervisor)
      (history : List WdtEvent) (millis : UInt32),
      fwWdtInit garbage timeout hwKickFn faultFn start = (.ok, wdt₀) → Run Step wdt₀ history wdt →
        Supervises start timeout history millis (fwWdtService wdt millis).1 := by
  intro hclaim
  let history : List WdtEvent :=
    [⟨.registerTask 3, .status .ok⟩, ⟨.service 10, .serviced ⟨true, false, none⟩⟩]
  have hregister : Step ⟨0, 0, 1000, 0, false, true⟩ ⟨.registerTask 3, .status .ok⟩
      ⟨8, 8, 1000, 0, false, true⟩ := rfl
  have hservice : Step ⟨8, 8, 1000, 0, false, true⟩
      ⟨.service 10, .serviced ⟨true, false, none⟩⟩ ⟨8, 0, 1000, 10, false, true⟩ := rfl
  have hsupervises := hclaim 0 1000 false true sampleWdt ⟨0, 0, 1000, 0, false, true⟩
    ⟨8, 0, 1000, 10, false, true⟩ history 1010 rfl ((Run.single hregister).snoc hservice)
  have hstarving : Starving history 3 :=
    ((hsupervises.fault 8 rfl).1 3).mp (by decide)
  exact hstarving.2 ⟨_, List.mem_cons_self, Or.inr rfl⟩

end Runs

end ZeroEmbedded.Wdt
