import ZeroEmbedded.Foundation.Runs
import ZeroEmbedded.Types

/-!
# Power accounting

`power.c` over a clock that gives the successive results of
`fw_timer_get_micros`. Active time is added when a sleep begins, and the slice
since the last wake-up only when the metrics are read.

## Implementation notes

How long a sleep lasts shows in the next reading of the clock, so that its
`max_sleep_ms` is left out. `out_metrics` is not null.
-/

namespace ZeroEmbedded.Power

open Foundation

/-- The variables of `power.c`, and the number of clock readings so far. -/
structure PmState where
  periodStartUs : UInt64
  lastWakeUs : UInt64
  totalActiveUs : UInt64
  totalSleepUs : UInt64
  sleepCount : UInt32
  pmInitialized : Bool
  reads : Nat
  deriving DecidableEq, Repr

/-- `fw_pm_metrics_t`. -/
structure FwPmMetrics where
  totalActiveUs : UInt64
  totalSleepUs : UInt64
  sleepCount : UInt32
  cpuLoadPermille : UInt16
  deriving DecidableEq, Repr

/-- Before `fw_pm_init`. -/
def PmState.boot : PmState := ⟨0, 0, 0, 0, 0, false, 0⟩

section Functions

variable (clock : Nat → UInt64)

/-- `fw_pm_init`. -/
def fwPmInit (s : PmState) : PmState :=
  let now := clock s.reads
  { periodStartUs := now
    lastWakeUs := now
    totalActiveUs := 0
    totalSleepUs := 0
    sleepCount := 0
    pmInitialized := true
    reads := s.reads + 1 }

/-- `fw_pm_enter_sleep`. -/
def fwPmEnterSleep (s : PmState) : PmState :=
  let s := if ¬ s.pmInitialized then fwPmInit clock s else s
  let enterUs := clock s.reads
  let activeDelta := enterUs - s.lastWakeUs
  let exitUs := clock (s.reads + 1)
  let sleepDelta := if exitUs ≥ enterUs then exitUs - enterUs else 0
  { s with
    totalActiveUs := s.totalActiveUs + activeDelta
    totalSleepUs := s.totalSleepUs + sleepDelta
    sleepCount := s.sleepCount + 1
    lastWakeUs := exitUs
    reads := s.reads + 2 }

/-- `fw_pm_get_metrics`. -/
def fwPmGetMetrics (s : PmState) : FwPmMetrics × PmState :=
  let now := clock s.reads
  let currentActive := s.totalActiveUs + (now - s.lastWakeUs)
  let totalTime := currentActive + s.totalSleepUs
  ({ totalActiveUs := currentActive
     totalSleepUs := s.totalSleepUs
     sleepCount := s.sleepCount
     cpuLoadPermille :=
       if totalTime > 0 then (currentActive * 1000 / totalTime).toUInt16 else 0 },
   { s with reads := s.reads + 1 })

/-- `fw_pm_reset_metrics`. -/
def fwPmResetMetrics (s : PmState) : PmState := fwPmInit clock s

/-- A call: a new period with its first reading, a sleep, or the metrics that were read at `now`. -/
inductive PmEvent
  | reset (now : UInt64)
  | slept
  | metrics (now : UInt64) (m : FwPmMetrics)
  deriving DecidableEq

/-- One call. -/
inductive PmStep : PmState → PmEvent → PmState → Prop
  | init (s : PmState) : PmStep s (.reset (clock s.reads)) (fwPmInit clock s)
  | enterSleep (s : PmState) : PmStep s .slept (fwPmEnterSleep clock s)
  | getMetrics (s : PmState) : PmStep s
      (.metrics (clock s.reads) (fwPmGetMetrics clock s).1) (fwPmGetMetrics clock s).2
  | resetMetrics (s : PmState) : PmStep s (.reset (clock s.reads)) (fwPmResetMetrics clock s)

end Functions

section History

/-- The reading with which the last period has begun. -/
def periodStart (start : UInt64) (history : List PmEvent) : UInt64 :=
  history.foldl (fun time e =>
    match e with
    | .reset now => now
    | _ => time) start

/-- The sleeps of the last period. -/
def sleeps (history : List PmEvent) : Nat :=
  history.foldl (fun n e =>
    match e with
    | .reset _ => 0
    | .slept => n + 1
    | .metrics _ _ => n) 0

/-- The events are in one period. -/
def OnePeriod (events : List PmEvent) : Prop := ∀ e ∈ events, ∀ now, e ≠ .reset now

/-- What metrics that are read at `now` report behind this history, when `count` of the sleeps are
told. A quotient by zero is zero. -/
structure Reports (count : Nat → Nat) (start : UInt64) (history : List PmEvent) (now : UInt64)
    (m : FwPmMetrics) : Prop where
  total : m.totalActiveUs.toNat + m.totalSleepUs.toNat =
    now.toNat - (periodStart start history).toNat
  sleepCount : m.sleepCount.toNat = count (sleeps history)
  load : m.cpuLoadPermille.toNat =
    1000 * m.totalActiveUs.toNat / (m.totalActiveUs.toNat + m.totalSleepUs.toNat)
  load_le : m.cpuLoadPermille.toNat ≤ 1000

/-- All metrics of a run report what has happened, and do not decrease within a period. -/
structure Conserves (count : Nat → Nat) (start : UInt64) (history : List PmEvent) : Prop where
  reports : ∀ before now m after, history = before ++ .metrics now m :: after →
    Reports count start before now m
  ascends : ∀ before now m between now' m' after,
    history = before ++ .metrics now m :: between ++ .metrics now' m' :: after →
      OnePeriod between → m.totalActiveUs ≤ m'.totalActiveUs ∧ m.totalSleepUs ≤ m'.totalSleepUs

theorem periodStart_concat (start : UInt64) (history : List PmEvent) (e : PmEvent) :
    periodStart start (history ++ [e]) =
      match e with
      | .reset now => now
      | _ => periodStart start history := by
  rw [periodStart, List.foldl_append]
  rfl

theorem sleeps_concat (history : List PmEvent) (e : PmEvent) :
    sleeps (history ++ [e]) =
      match e with
      | .reset _ => 0
      | .slept => sleeps history + 1
      | .metrics _ _ => sleeps history := by
  rw [sleeps, List.foldl_append]
  rfl

end History

section Accounting

variable {clock : Nat → UInt64} {start : UInt64} {s t : PmState} {history : List PmEvent}
  {e : PmEvent}

/-- The accounts are closed up to the last wake-up: active time and sleep make up the period. The
later readings do not go behind what was reported in it. -/
structure Accounts (clock : Nat → UInt64) (start : UInt64) (s : PmState)
    (history : List PmEvent) : Prop where
  initialized : s.pmInitialized = true
  wake : ∀ j ≥ s.reads, s.lastWakeUs.toNat ≤ (clock j).toNat
  begun : start.toNat ≤ (periodStart start history).toNat
  closed : (periodStart start history).toNat + (s.totalActiveUs.toNat + s.totalSleepUs.toNat) =
    s.lastWakeUs.toNat
  sleepCount : s.sleepCount.toNat = sleeps history % 2 ^ 32
  reported : ∀ before now m after, history = before ++ .metrics now m :: after →
    OnePeriod after → m.totalSleepUs.toNat ≤ s.totalSleepUs.toNat ∧
      ∀ j ≥ s.reads, m.totalActiveUs.toNat ≤
        s.totalActiveUs.toNat + ((clock j).toNat - s.lastWakeUs.toNat)

theorem toNat_add_of_lt {a b : UInt64} (h : a.toNat + b.toNat < 2 ^ 64) :
    (a + b).toNat = a.toNat + b.toNat := by
  rw [UInt64.toNat_add]
  exact Nat.mod_eq_of_lt h

theorem OnePeriod.concat {events : List PmEvent} (h : OnePeriod (events ++ [e])) :
    OnePeriod events ∧ ∀ now, e ≠ .reset now :=
  ⟨fun f hf => h f (List.mem_append_left _ hf), h e (List.mem_append_right _ List.mem_cons_self)⟩

/-- A new period begins with closed accounts. -/
theorem Accounts.reset (hmono : Monotone fun k => (clock k).toNat)
    (hstart : start.toNat ≤ (clock s.reads).toNat) :
    Accounts clock start (fwPmInit clock s) (history ++ [.reset (clock s.reads)]) where
  initialized := rfl
  wake j hj := hmono (Nat.le_of_succ_le hj)
  begun := by
    rw [periodStart_concat]
    exact hstart
  closed := by
    rw [periodStart_concat]
    rfl
  sleepCount := by
    rw [sleeps_concat]
    rfl
  reported before now m after heq hperiod := by
    rcases concat_eq_append_cons heq with ⟨-, hlast, -⟩ | ⟨rest, rfl, -⟩
    · cases hlast
    · exact absurd rfl (hperiod.concat.2 (clock s.reads))

/-- The active time up to a reading. -/
theorem Accounts.active (h : Accounts clock start s history) {j : Nat} (hj : s.reads ≤ j) :
    (s.totalActiveUs + (clock j - s.lastWakeUs)).toNat =
      s.totalActiveUs.toNat + ((clock j).toNat - s.lastWakeUs.toNat) := by
  have hwake := h.wake j hj
  have hclosed := h.closed
  have hlt := (clock j).toNat_lt
  have hslice : (clock j - s.lastWakeUs).toNat = (clock j).toNat - s.lastWakeUs.toNat :=
    UInt64.toNat_sub_of_le _ _ (UInt64.le_iff_toNat_le.mpr hwake)
  rw [toNat_add_of_lt (by omega), hslice]

/-- A sleep closes the accounts at its end. -/
theorem Accounts.enterSleep (h : Accounts clock start s history)
    (hmono : Monotone fun k => (clock k).toNat) :
    Accounts clock start (fwPmEnterSleep clock s) (history ++ [.slept]) := by
  have hactive := h.active (Nat.le_refl s.reads)
  have hwake := h.wake s.reads (Nat.le_refl _)
  have hclosed := h.closed
  have hsleeps : sleeps (history ++ [.slept]) = sleeps history + 1 := sleeps_concat history .slept
  have hexit : (clock s.reads).toNat ≤ (clock (s.reads + 1)).toNat := hmono (Nat.le_succ _)
  have hlt := (clock (s.reads + 1)).toNat_lt
  have hslice : (clock (s.reads + 1) - clock s.reads).toNat =
      (clock (s.reads + 1)).toNat - (clock s.reads).toNat :=
    UInt64.toNat_sub_of_le _ _ (UInt64.le_iff_toNat_le.mpr hexit)
  have hsleep : (s.totalSleepUs + (clock (s.reads + 1) - clock s.reads)).toNat =
      s.totalSleepUs.toNat + ((clock (s.reads + 1)).toNat - (clock s.reads).toNat) := by
    rw [toNat_add_of_lt (by omega), hslice]
  have hafter : fwPmEnterSleep clock s = { s with
      totalActiveUs := s.totalActiveUs + (clock s.reads - s.lastWakeUs)
      totalSleepUs := s.totalSleepUs + (clock (s.reads + 1) - clock s.reads)
      sleepCount := s.sleepCount + 1
      lastWakeUs := clock (s.reads + 1)
      reads := s.reads + 2 } := by
    simp only [fwPmEnterSleep, h.initialized, not_true_eq_false, if_false]
    rw [if_pos (UInt64.le_iff_toNat_le.mpr hexit)]
  rw [hafter]
  constructor
  · exact h.initialized
  · exact fun j hj => hmono (Nat.le_of_succ_le hj)
  · rw [periodStart_concat]
    exact h.begun
  · rw [periodStart_concat]
    dsimp only
    rw [hactive, hsleep]
    omega
  · rw [hsleeps]
    dsimp only
    rw [UInt32.toNat_add, h.sleepCount]
    exact Nat.mod_add_mod _ _ _
  · intro before now m after heq hperiod
    rcases concat_eq_append_cons heq with ⟨-, hlast, -⟩ | ⟨rest, rfl, hhistory⟩
    · cases hlast
    · obtain ⟨hbefore, hnow⟩ := h.reported before now m rest hhistory hperiod.concat.1
      have hactive' := hnow s.reads (Nat.le_refl _)
      dsimp only
      rw [hactive, hsleep]
      exact ⟨by omega, fun j hj => by omega⟩

/-- Reading the metrics leaves the accounts alone. -/
theorem Accounts.getMetrics (h : Accounts clock start s history)
    (hmono : Monotone fun k => (clock k).toNat) :
    Accounts clock start (fwPmGetMetrics clock s).2
      (history ++ [.metrics (clock s.reads) (fwPmGetMetrics clock s).1]) := by
  have hactive : (fwPmGetMetrics clock s).1.totalActiveUs.toNat = _ :=
    h.active (Nat.le_refl s.reads)
  constructor
  · exact h.initialized
  · exact fun j hj => h.wake j (Nat.le_of_succ_le hj)
  · rw [periodStart_concat]
    exact h.begun
  · rw [periodStart_concat]
    exact h.closed
  · rw [sleeps_concat]
    exact h.sleepCount
  · intro before now m after heq hperiod
    rcases concat_eq_append_cons heq with ⟨-, hlast, -⟩ | ⟨rest, rfl, hhistory⟩
    · obtain ⟨-, rfl⟩ := PmEvent.metrics.inj hlast
      refine ⟨Nat.le_refl _, fun j hj => ?_⟩
      have hle : (clock s.reads).toNat ≤ (clock j).toNat := hmono (Nat.le_of_succ_le hj)
      rw [hactive]
      change _ ≤ s.totalActiveUs.toNat + ((clock j).toNat - s.lastWakeUs.toNat)
      omega
    · obtain ⟨hbefore, hnow⟩ := h.reported before now m rest hhistory hperiod.concat.1
      exact ⟨hbefore, fun j hj => hnow j (Nat.le_of_succ_le hj)⟩

/-- The metrics of closed accounts. -/
theorem Accounts.reports (h : Accounts clock start s history)
    (hspan : ((clock s.reads).toNat - start.toNat) * 1000 < 2 ^ 64) :
    Reports (· % 2 ^ 32) start history (clock s.reads) (fwPmGetMetrics clock s).1 := by
  have hactive := h.active (Nat.le_refl s.reads)
  have hwake := h.wake s.reads (Nat.le_refl _)
  have hclosed := h.closed
  have hbegun := h.begun
  have htotal : (fwPmGetMetrics clock s).1.totalActiveUs.toNat + s.totalSleepUs.toNat =
      (clock s.reads).toNat - (periodStart start history).toNat := by
    change (s.totalActiveUs + (clock s.reads - s.lastWakeUs)).toNat + _ = _
    omega
  have hload : (fwPmGetMetrics clock s).1.cpuLoadPermille.toNat =
      1000 * (fwPmGetMetrics clock s).1.totalActiveUs.toNat /
        ((fwPmGetMetrics clock s).1.totalActiveUs.toNat + s.totalSleepUs.toNat) := by
    have hdef : (fwPmGetMetrics clock s).1.cpuLoadPermille =
        if (fwPmGetMetrics clock s).1.totalActiveUs + s.totalSleepUs > 0 then
          ((fwPmGetMetrics clock s).1.totalActiveUs * 1000 /
            ((fwPmGetMetrics clock s).1.totalActiveUs + s.totalSleepUs)).toUInt16 else 0 := rfl
    generalize (fwPmGetMetrics clock s).1.totalActiveUs = active at hdef htotal ⊢
    have hsum : (active + s.totalSleepUs).toNat = active.toNat + s.totalSleepUs.toNat :=
      toNat_add_of_lt (by omega)
    have hproduct : (active * 1000).toNat = 1000 * active.toNat := by
      have hthousand : UInt64.toNat 1000 = 1000 := rfl
      have hle : active.toNat ≤ (clock s.reads).toNat - start.toNat := by omega
      have hlt : active.toNat * 1000 < 2 ^ 64 :=
        Nat.lt_of_le_of_lt (Nat.mul_le_mul_right 1000 hle) hspan
      rw [UInt64.toNat_mul, hthousand, Nat.mod_eq_of_lt hlt, Nat.mul_comm]
    rw [hdef]
    split
    · rw [UInt64.toNat_toUInt16, UInt64.toNat_div, hsum, hproduct]
      refine Nat.mod_eq_of_lt (Nat.lt_of_le_of_lt ?_ (by decide : 1000 < 2 ^ 16))
      exact Nat.div_le_of_le_mul (by rw [Nat.mul_comm]; exact Nat.mul_le_mul_right _ (by omega))
    · next hzero =>
        have hnone : active.toNat + s.totalSleepUs.toNat = 0 := by
          rw [← hsum]
          exact Nat.eq_zero_of_not_pos fun hpos => hzero (UInt64.lt_iff_toNat_lt.mpr hpos)
        rw [hnone, Nat.div_zero]
        rfl
  refine ⟨htotal, h.sleepCount, hload, ?_⟩
  rw [hload]
  exact Nat.div_le_of_le_mul (by rw [Nat.mul_comm]; exact Nat.mul_le_mul_right _ (by omega))

/-- A call keeps the accounts. -/
theorem Accounts.step (h : Accounts clock start s history)
    (hmono : Monotone fun k => (clock k).toNat) (hstep : PmStep clock s e t) :
    Accounts clock start t (history ++ [e]) := by
  have hstart : start.toNat ≤ (clock s.reads).toNat := by
    have hwake := h.wake s.reads (Nat.le_refl _)
    have hclosed := h.closed
    have hbegun := h.begun
    omega
  cases hstep with
  | init => exact Accounts.reset hmono hstart
  | enterSleep => exact h.enterSleep hmono
  | getMetrics => exact h.getMetrics hmono
  | resetMetrics => exact Accounts.reset hmono hstart

/-- No reading is taken back. -/
theorem reads_lt_of_step (h : Accounts clock start s history) (hstep : PmStep clock s e t) :
    s.reads < t.reads := by
  cases hstep with
  | init => exact Nat.lt_succ_self _
  | enterSleep =>
      simp only [fwPmEnterSleep, h.initialized, not_true_eq_false, if_false]
      omega
  | getMetrics => exact Nat.lt_succ_self _
  | resetMetrics => exact Nat.lt_succ_self _

/-- A call adds metrics that report the history, or none. -/
theorem Accounts.conserves_step (h : Accounts clock start s history)
    (hspan : ((clock s.reads).toNat - start.toNat) * 1000 < 2 ^ 64)
    (hconserves : Conserves (· % 2 ^ 32) start history) (hstep : PmStep clock s e t) :
    Conserves (· % 2 ^ 32) start (history ++ [e]) := by
  have hnew : ∀ now m, PmEvent.metrics now m = e →
      now = clock s.reads ∧ m = (fwPmGetMetrics clock s).1 := by
    rintro now m rfl
    cases hstep
    exact ⟨rfl, rfl⟩
  constructor
  · intro before now m after heq
    rcases concat_eq_append_cons heq with ⟨rfl, hlast, -⟩ | ⟨rest, -, hhistory⟩
    · obtain ⟨rfl, rfl⟩ := hnew now m hlast
      exact h.reports hspan
    · exact hconserves.reports before now m rest hhistory
  · intro before now m between now' m' after heq hperiod
    rcases concat_eq_append_cons heq with ⟨hbefore, hlast, -⟩ | ⟨rest, -, hhistory⟩
    · obtain ⟨-, rfl⟩ := hnew now' m' hlast
      obtain ⟨hsleep, hactive⟩ := h.reported before now m between hbefore.symm hperiod
      refine ⟨UInt64.le_iff_toNat_le.mpr ?_, UInt64.le_iff_toNat_le.mpr hsleep⟩
      exact Nat.le_trans (hactive s.reads (Nat.le_refl _))
        (Nat.le_of_eq (h.active (Nat.le_refl _)).symm)
    · exact hconserves.ascends before now m between now' m' rest hhistory hperiod

end Accounting

/-- In every run behind `fw_pm_init` the metrics add up to the time of their period, with the number
of its sleeps as far as `sleep_count` can tell it. -/
theorem fwPmGetMetrics_conserves (clock : Nat → UInt64) (hmono : Monotone fun k => (clock k).toNat)
    (s0 : PmState) {s : PmState} {history : List PmEvent}
    (run : Run (PmStep clock) (fwPmInit clock s0) history s)
    (hspan : ∀ k < s.reads, ((clock k).toNat - (clock s0.reads).toNat) * 1000 < 2 ^ 64) :
    Conserves (· % 2 ^ 32) (clock s0.reads) history := by
  suffices hall : Accounts clock (clock s0.reads) s history ∧
      ((∀ k < s.reads, ((clock k).toNat - (clock s0.reads).toNat) * 1000 < 2 ^ 64) →
        Conserves (· % 2 ^ 32) (clock s0.reads) history) from hall.2 hspan
  clear hspan
  have hbegin : Accounts clock (clock s0.reads) (fwPmInit clock s0) [] :=
    { initialized := rfl
      wake := fun j hj => hmono (Nat.le_of_succ_le hj)
      begun := Nat.le_refl _
      closed := rfl
      sleepCount := rfl
      reported := fun before now m after heq => by simp at heq }
  have hempty : Conserves (· % 2 ^ 32) (clock s0.reads) [] :=
    { reports := fun before now m after heq => by simp at heq
      ascends := fun before now m between now' m' after heq => by simp at heq }
  refine run.invariant (fun s history => Accounts clock (clock s0.reads) s history ∧
    ((∀ k < s.reads, ((clock k).toNat - (clock s0.reads).toNat) * 1000 < 2 ^ 64) →
      Conserves (· % 2 ^ 32) (clock s0.reads) history)) ⟨hbegin, fun _ => hempty⟩ ?_
  rintro s history e t ⟨h, hconserves⟩ hstep
  have hlt := reads_lt_of_step h hstep
  refine ⟨h.step hmono hstep, fun hspan => ?_⟩
  exact h.conserves_step (hspan s.reads hlt)
    (hconserves fun k hk => hspan k (Nat.lt_trans hk hlt)) hstep

/-- A clock that advances by a millisecond for each of nine readings. -/
def sampleClock (k : Nat) : UInt64 := UInt64.ofNat (min k 9 * 1000)

theorem fwPmGetMetrics_conserves_sample :
    Conserves (· % 2 ^ 32) 0 [.slept, .metrics 3000 ⟨2000, 1000, 1, 666⟩] := by
  have hmono : Monotone fun k => (sampleClock k).toNat := by
    intro j k hle
    have htoNat : ∀ k, (sampleClock k).toNat = min k 9 * 1000 := fun k =>
      (UInt64.toNat_ofNat' ..).trans (Nat.mod_eq_of_lt (by omega))
    dsimp only
    rw [htoNat, htoNat]
    omega
  have hsleep : PmStep sampleClock _ _ _ := PmStep.enterSleep (fwPmInit sampleClock PmState.boot)
  have run := ((Run.nil (fwPmInit sampleClock PmState.boot)).snoc hsleep).snoc
    (PmStep.getMetrics _)
  have hhistory : [] ++ [PmEvent.slept] ++ [PmEvent.metrics (sampleClock 3) (fwPmGetMetrics
      sampleClock (fwPmEnterSleep sampleClock (fwPmInit sampleClock PmState.boot))).1] =
      [.slept, .metrics 3000 ⟨2000, 1000, 1, 666⟩] := by decide
  rw [← hhistory]
  exact fwPmGetMetrics_conserves sampleClock hmono PmState.boot run (by decide)

theorem sleeps_replicate (n : Nat) : sleeps (List.replicate n .slept) = n := by
  induction n with
  | zero => rfl
  | succ n ih => rw [List.replicate_succ', sleeps_concat, ih]

/-- A run of any number of sleeps, before the metrics are read. -/
theorem exists_run_of_sleeps (clock : Nat → UInt64) (s0 : PmState) (n : Nat) :
    ∃ s, Run (PmStep clock) s0 (List.replicate n .slept) s := by
  induction n with
  | zero => exact ⟨s0, Run.nil s0⟩
  | succ n ih =>
      obtain ⟨s, hrun⟩ := ih
      refine ⟨fwPmEnterSleep clock s, ?_⟩
      rw [List.replicate_succ']
      exact hrun.snoc (PmStep.enterSleep s)

/-- The counter of the sleeps starts again after `2 ^ 32` of them. -/
theorem fwPmGetMetrics_miscounts :
    ¬ ∀ (clock : Nat → UInt64), (Monotone fun k => (clock k).toNat) →
      ∀ (s0 s : PmState) (history : List PmEvent),
        Run (PmStep clock) (fwPmInit clock s0) history s →
        (∀ k < s.reads, ((clock k).toNat - (clock s0.reads).toNat) * 1000 < 2 ^ 64) →
        Conserves id (clock s0.reads) history := by
  intro hclaim
  have hbound : ∀ n, n < 2 ^ 32 := by
    intro n
    obtain ⟨s, hrun⟩ := exists_run_of_sleeps (fun _ => 0) (fwPmInit (fun _ => 0) PmState.boot) n
    have hconserves := hclaim (fun _ => 0) (fun _ _ _ => Nat.le_refl _) PmState.boot _ _
      (hrun.snoc (PmStep.getMetrics s)) (fun _ _ => by decide)
    have hcount := (hconserves.reports _ _ _ [] rfl).sleepCount
    rw [sleeps_replicate, id] at hcount
    rw [← hcount]
    exact UInt32.toNat_lt _
  exact Nat.lt_irrefl _ (hbound (2 ^ 32))

end ZeroEmbedded.Power
