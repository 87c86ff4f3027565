import ZeroEmbedded.Foundation.LastWord
import ZeroEmbedded.Types

/-!
# The guard against crash loops

`boot_guard.c`. A boot counts as a crash until it is marked as successful. When
the crashes in a row reach the limit the safe mode is engaged. The guard lives
in memory that survives a reset, so the runs here go over any number of boots
and start from any contents.

## Implementation notes

Pointer arguments are values, so the null tests have no counterpart.
-/

namespace ZeroEmbedded.BootGuard

open Foundation

/-- `FW_BOOT_GUARD_DEFAULT_MAX_CRASHES`. -/
def fwBootGuardDefaultMaxCrashes : UInt32 := 3

/-- `fw_boot_guard_t`. -/
structure FwBootGuard where
  bootAttempts : UInt32
  consecutiveCrashes : UInt32
  maxAllowedCrashes : UInt32
  safeModeActive : Bool
  deriving DecidableEq, Repr

/-- `fw_boot_guard_init`. -/
def fwBootGuardInit (guard : FwBootGuard) (maxCrashes : UInt32) : FwBootGuard :=
  let maxCrashes := if maxCrashes = 0 then fwBootGuardDefaultMaxCrashes else maxCrashes
  let counted := { guard with
    maxAllowedCrashes := maxCrashes
    bootAttempts := guard.bootAttempts + 1
    consecutiveCrashes := guard.consecutiveCrashes + 1 }
  if counted.consecutiveCrashes ≥ counted.maxAllowedCrashes then
    { counted with safeModeActive := true }
  else counted

/-- `fw_boot_guard_mark_success`. -/
def fwBootGuardMarkSuccess (guard : FwBootGuard) : FwBootGuard :=
  { guard with consecutiveCrashes := 0, safeModeActive := false }

/-- `fw_boot_guard_set_safe_mode`. -/
def fwBootGuardSetSafeMode (guard : FwBootGuard) (enable : Bool) : FwBootGuard :=
  { guard with safeModeActive := enable }

/-- `fw_boot_guard_is_safe_mode`. -/
def fwBootGuardIsSafeMode (guard : FwBootGuard) : Bool := guard.safeModeActive

/-- The calls of the firmware over its boots. -/
inductive BootEvent
  | boot (maxCrashes : UInt32)
  | success
  | setSafeMode (enable : Bool)
  deriving DecidableEq, Repr

inductive BootStep : FwBootGuard → BootEvent → FwBootGuard → Prop
  | boot (guard : FwBootGuard) (maxCrashes : UInt32) :
      BootStep guard (.boot maxCrashes) (fwBootGuardInit guard maxCrashes)
  | success (guard : FwBootGuard) : BootStep guard .success (fwBootGuardMarkSuccess guard)
  | setSafeMode (guard : FwBootGuard) (enable : Bool) :
      BootStep guard (.setSafeMode enable) (fwBootGuardSetSafeMode guard enable)

/-- The limit that a boot sets. -/
def limitOf (maxCrashes : UInt32) : Nat := if maxCrashes = 0 then 3 else maxCrashes.toNat

/-- The boots of a history. -/
def boots (es : List BootEvent) : Nat :=
  es.countP fun e => match e with | .boot _ => true | _ => false

/-- The boots since the last success, after `start` of them. -/
def crashes (start : Nat) (es : List BootEvent) : Nat :=
  es.foldl (fun n e => match e with
    | .boot _ => n + 1
    | .success => 0
    | .setSafeMode _ => n) start

/-- What an event decides about the safe mode when the counter was at `start`. -/
def verdict (start : Nat) (before : List BootEvent) : BootEvent → Option Bool
  | .boot maxCrashes =>
      if limitOf maxCrashes ≤ (crashes start before + 1) % 2 ^ 32 then some true else none
  | .success => some false
  | .setSafeMode enable => some enable

/-- Boots with one limit and successes. -/
def Automatic (maxCrashes : UInt32) (es : List BootEvent) : Prop :=
  ∀ e ∈ es, e = .boot maxCrashes ∨ e = .success

section Runs

variable {guard guard' : FwBootGuard} {es : List BootEvent} {maxCrashes : UInt32}

theorem crashes_concat (start : Nat) (es : List BootEvent) (e : BootEvent) :
    crashes start (es ++ [e]) = match e with
      | .boot _ => crashes start es + 1
      | .success => 0
      | .setSafeMode _ => crashes start es := by
  rw [crashes, List.foldl_append]
  rfl

theorem limitOf_eq (maxCrashes : UInt32) :
    (if maxCrashes = 0 then fwBootGuardDefaultMaxCrashes else maxCrashes).toNat =
      limitOf maxCrashes := by
  rw [limitOf]
  split <;> rfl

theorem limitOf_pos (maxCrashes : UInt32) : 0 < limitOf maxCrashes := by
  rw [limitOf]
  split
  · decide
  · next hne => exact Nat.pos_of_ne_zero fun hzero => hne (UInt32.toNat_inj.mp hzero)

theorem limitOf_lt (maxCrashes : UInt32) : limitOf maxCrashes < 2 ^ 32 := by
  rw [← limitOf_eq]
  exact UInt32.toNat_lt _

/-- A boot counts, and engages the safe mode from the limit on. -/
theorem fwBootGuardInit_eq (guard : FwBootGuard) (maxCrashes : UInt32) :
    (fwBootGuardInit guard maxCrashes).bootAttempts = guard.bootAttempts + 1 ∧
      (fwBootGuardInit guard maxCrashes).consecutiveCrashes = guard.consecutiveCrashes + 1 ∧
      (fwBootGuardInit guard maxCrashes).safeModeActive =
        if limitOf maxCrashes ≤ (guard.consecutiveCrashes + 1).toNat then true
        else guard.safeModeActive := by
  rw [← limitOf_eq, fwBootGuardInit]
  dsimp only
  by_cases hlimit : guard.consecutiveCrashes + 1 ≥
      if maxCrashes = 0 then fwBootGuardDefaultMaxCrashes else maxCrashes
  · rw [if_pos hlimit, if_pos (UInt32.le_iff_toNat_le.mp hlimit)]
    exact ⟨rfl, rfl, rfl⟩
  · rw [if_neg hlimit, if_neg fun hle => hlimit (UInt32.le_iff_toNat_le.mpr hle)]
    exact ⟨rfl, rfl, rfl⟩

/-- The counters of a run. -/
theorem run_counts (run : Run BootStep guard es guard') :
    guard'.bootAttempts.toNat = (guard.bootAttempts.toNat + boots es) % 2 ^ 32 ∧
      guard'.consecutiveCrashes.toNat =
        crashes guard.consecutiveCrashes.toNat es % 2 ^ 32 := by
  refine run.invariant (fun guard' es =>
    guard'.bootAttempts.toNat = (guard.bootAttempts.toNat + boots es) % 2 ^ 32 ∧
      guard'.consecutiveCrashes.toNat = crashes guard.consecutiveCrashes.toNat es % 2 ^ 32)
    ⟨(Nat.mod_eq_of_lt guard.bootAttempts.toNat_lt).symm,
      (Nat.mod_eq_of_lt guard.consecutiveCrashes.toNat_lt).symm⟩ ?_
  rintro now es e next ⟨hboots, hcrashes⟩ step
  rw [crashes_concat, boots, List.countP_append, ← boots]
  cases step with
  | boot maxCrashes =>
      obtain ⟨hattempts, hconsecutive, -⟩ := fwBootGuardInit_eq now maxCrashes
      rw [hattempts, hconsecutive, UInt32.toNat_add, UInt32.toNat_add, hboots, hcrashes]
      constructor
      · change (_ % 2 ^ 32 + 1) % 2 ^ 32 = (_ + (boots es + 1)) % 2 ^ 32
        omega
      · dsimp only
        change (_ % 2 ^ 32 + 1) % 2 ^ 32 = _
        omega
  | success => exact ⟨hboots, rfl⟩
  | setSafeMode enable => exact ⟨hboots, hcrashes⟩

/-- The safe mode of a run is the last word about it. -/
theorem run_verdict (run : Run BootStep guard es guard') :
    LastWord (verdict guard.consecutiveCrashes.toNat) guard.safeModeActive es
      guard'.safeModeActive := by
  refine LastWord.of_run FwBootGuard.safeModeActive run ?_
  intro now es e next hrun step
  have hcrashes := (run_counts hrun).2
  cases step with
  | boot maxCrashes =>
      obtain ⟨-, -, hsafe⟩ := fwBootGuardInit_eq now maxCrashes
      have hcount : (now.consecutiveCrashes + 1).toNat =
          (crashes guard.consecutiveCrashes.toNat es + 1) % 2 ^ 32 := by
        rw [UInt32.toNat_add, hcrashes]
        change (_ % 2 ^ 32 + 1) % 2 ^ 32 = _
        omega
      rw [hsafe, hcount, verdict]
      split <;> rfl
  | success => rfl
  | setSafeMode enable => rfl

/-- With one limit the safe mode follows the crashes in a row, even when their counter wraps. -/
theorem run_automatic (run : Run BootStep guard es guard') (hall : Automatic maxCrashes es)
    (hcounter : guard.consecutiveCrashes = 0) (hsafe : guard.safeModeActive = false) :
    guard'.safeModeActive = true ↔ limitOf maxCrashes ≤ crashes 0 es := by
  have hinv : Automatic maxCrashes es → Run BootStep guard es guard' ∧
      (guard'.safeModeActive = true ↔ limitOf maxCrashes ≤ crashes 0 es) := by
    refine run.invariant (fun guard' es => Automatic maxCrashes es →
      Run BootStep guard es guard' ∧
        (guard'.safeModeActive = true ↔ limitOf maxCrashes ≤ crashes 0 es)) ?_ ?_
    · intro _
      have hpos := limitOf_pos maxCrashes
      refine ⟨Run.nil guard, iff_of_false (by rw [hsafe]; decide) ?_⟩
      change ¬ limitOf maxCrashes ≤ 0
      omega
    · intro now es e next ih step hconcat
      obtain ⟨hrun, hiff⟩ := ih fun x hx => hconcat x (List.mem_append_left _ hx)
      refine ⟨hrun.snoc step, ?_⟩
      have hcrashes := (run_counts hrun).2
      rw [hcounter, UInt32.toNat_zero] at hcrashes
      have hlt := limitOf_lt maxCrashes
      rw [crashes_concat]
      rcases hconcat e (List.mem_append_right _ List.mem_cons_self) with rfl | rfl
      · cases step
        obtain ⟨-, -, hnext⟩ := fwBootGuardInit_eq now maxCrashes
        have hcount : (now.consecutiveCrashes + 1).toNat = (crashes 0 es + 1) % 2 ^ 32 := by
          rw [UInt32.toNat_add, hcrashes]
          change (_ % 2 ^ 32 + 1) % 2 ^ 32 = _
          omega
        dsimp only
        rw [hnext, hcount]
        by_cases hengaged : now.safeModeActive = true
        · -- engaged before, at fewer crashes
          have hle := hiff.mp hengaged
          rw [hengaged, ite_self]
          exact iff_of_true rfl (by omega)
        · have hearly : ¬ limitOf maxCrashes ≤ crashes 0 es := fun hle => hengaged (hiff.mpr hle)
          rw [Nat.mod_eq_of_lt (by omega)]
          split
          · next hle => exact iff_of_true rfl hle
          · next hnot => exact iff_of_false hengaged hnot
      · cases step
        have hpos := limitOf_pos maxCrashes
        refine iff_of_false Bool.false_ne_true ?_
        dsimp only
        omega
  exact (hinv hall).2

/-- The counters count the boots and the crashes in a row modulo their width, and the safe mode is
the last word about it. In a run from a cleared guard with one limit and no manual setting it is
active exactly when the crashes in a row have reached the limit. -/
theorem fwBootGuard_breaksCrashLoop (run : Run BootStep guard es guard') :
    guard'.bootAttempts.toNat = (guard.bootAttempts.toNat + boots es) % 2 ^ 32 ∧
      guard'.consecutiveCrashes.toNat = crashes guard.consecutiveCrashes.toNat es % 2 ^ 32 ∧
      LastWord (verdict guard.consecutiveCrashes.toNat) guard.safeModeActive es
        (fwBootGuardIsSafeMode guard') ∧
      (guard.consecutiveCrashes = 0 → guard.safeModeActive = false →
        ∀ maxCrashes, Automatic maxCrashes es →
          (fwBootGuardIsSafeMode guard' = true ↔ limitOf maxCrashes ≤ crashes 0 es)) :=
  ⟨(run_counts run).1, (run_counts run).2, run_verdict run,
    fun hcounter hsafe _ hall => run_automatic run hall hcounter hsafe⟩

/-- Three crashes in a row with the default limit. -/
theorem fwBootGuard_breaksCrashLoop_sample :
    let guard : FwBootGuard := ⟨7, 0, 3, false⟩
    let es : List BootEvent := [.boot 0, .success, .boot 0, .boot 0, .boot 0]
    ∃ guard', Run BootStep guard es guard' ∧
      (fwBootGuardIsSafeMode guard' = true ↔ limitOf 0 ≤ crashes 0 es) ∧ crashes 0 es = 3 := by
  intro guard es
  have run := ((((Run.nil guard).snoc (BootStep.boot guard 0)).snoc (.success _)).snoc
    (.boot _ 0)).snoc (.boot _ 0) |>.snoc (.boot _ 0)
  have hall : Automatic 0 es := by
    unfold Automatic
    decide
  exact ⟨_, run, (fwBootGuard_breaksCrashLoop run).2.2.2 rfl rfl 0 hall, rfl⟩

end Runs

end ZeroEmbedded.BootGuard
