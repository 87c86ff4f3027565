import ZeroEmbedded.Foundation.Polling
import ZeroEmbedded.Foundation.Runs
import ZeroEmbedded.Hal.Timer

/-!
# Timeouts and delays

The timeouts of `timer.h` and the delays of `timer.c` compare differences of a
32-bit millisecond counter. They are right across the wrap of the counter as
long as it is looked at often enough.

## Implementation notes

A timeout is polled between the ticks of the SysTick interrupt of the bare-metal
build. A delay reads a counter that is given by the time of each reading.
-/

namespace ZeroEmbedded.Timer

open Foundation Foundation.Polling

/-- `fw_timeout_t`. -/
structure FwTimeout where
  startMs : UInt32
  durationMs : UInt32
  deriving DecidableEq, Repr

/-- `fw_timeout_start` when `fw_timer_get_millis` returns `millis`. -/
def fwTimeoutStart (millis durationMs : UInt32) : FwTimeout :=
  { startMs := millis, durationMs := durationMs }

/-- `fw_timeout_is_expired`. -/
def fwTimeoutIsExpired (millis : UInt32) (t : FwTimeout) : Bool :=
  let elapsed := millis - t.startMs
  elapsed ≥ t.durationMs

/-- `fw_timeout_remaining_ms`. -/
def fwTimeoutRemainingMs (millis : UInt32) (t : FwTimeout) : UInt32 :=
  let elapsed := millis - t.startMs
  if elapsed < t.durationMs then t.durationMs - elapsed else 0

/-- The SysTick interrupt, or the main loop looks at the timeout. -/
inductive TimeoutEvent
  | tick
  | poll (expired : Bool) (remaining : UInt32)
  deriving DecidableEq, Repr

/-- A step of the interrupt or of the main loop, by the milliseconds that are counted. -/
inductive TimeoutStep (t : FwTimeout) : UInt32 → TimeoutEvent → UInt32 → Prop
  | tick (millis : UInt32) : TimeoutStep t millis .tick (fwTimerSystickTick millis)
  | poll (millis : UInt32) :
      TimeoutStep t millis
        (.poll (fwTimeoutIsExpired millis t) (fwTimeoutRemainingMs millis t)) millis

/-- A tick takes a millisecond. -/
def TimeoutEvent.time : TimeoutEvent → Nat
  | tick => 1
  | poll _ _ => 0

def TimeoutEvent.isPoll : TimeoutEvent → Bool
  | tick => false
  | poll _ _ => true

section Timeouts

variable {start duration millis : UInt32} {es before after : List TimeoutEvent}

/-- The milliseconds since the start, modulo the range of the counter. -/
theorem toNat_elapsed (n : Nat) (start : UInt32) :
    (start + UInt32.ofNat n - start).toNat = n % 2 ^ 32 := by
  rw [UInt32.add_comm, UInt32.add_sub_cancel, UInt32.toNat_ofNat']

/-- What a poll `n` milliseconds after the start answers. -/
theorem poll_answers (n : Nat) (start duration : UInt32) :
    (fwTimeoutIsExpired (start + UInt32.ofNat n) (fwTimeoutStart start duration) = true ↔
        duration.toNat ≤ n % 2 ^ 32) ∧
      (fwTimeoutRemainingMs (start + UInt32.ofNat n) (fwTimeoutStart start duration)).toNat =
        duration.toNat - n % 2 ^ 32 := by
  have helapsed := toNat_elapsed n start
  rw [fwTimeoutIsExpired, fwTimeoutRemainingMs, fwTimeoutStart]
  dsimp only
  rw [decide_eq_true_iff, ge_iff_le, UInt32.le_iff_toNat_le, helapsed]
  refine ⟨Iff.rfl, ?_⟩
  by_cases hlt : start + UInt32.ofNat n - start < duration
  · have hle := UInt32.le_of_lt hlt
    rw [if_pos hlt, UInt32.toNat_sub_of_le _ _ hle, helapsed]
  · rw [UInt32.lt_iff_toNat_lt, helapsed] at hlt
    rw [if_neg (by rwa [UInt32.lt_iff_toNat_lt, helapsed]), UInt32.toNat_zero]
    omega

/-- The polls of the run, each exact modulo the range of the counter. -/
def PollsExactly (duration : UInt32) (es : List TimeoutEvent) : Prop :=
  ∀ before expired remaining after, es = before ++ .poll expired remaining :: after →
    (expired = true ↔ duration.toNat ≤ elapsed TimeoutEvent.time before % 2 ^ 32) ∧
      remaining.toNat = duration.toNat - elapsed TimeoutEvent.time before % 2 ^ 32

/-- The counter and the polls of a run by the milliseconds that have passed. -/
theorem run_polls (run : Run (TimeoutStep (fwTimeoutStart start duration)) start es millis) :
    millis = start + UInt32.ofNat (elapsed TimeoutEvent.time es) ∧
      PollsExactly duration es := by
  refine run.invariant (fun millis es =>
    millis = start + UInt32.ofNat (elapsed TimeoutEvent.time es) ∧ PollsExactly duration es)
    ⟨(UInt32.add_zero start).symm, ?_⟩ ?_
  · intro before expired remaining after hnil
    exact absurd (congrArg List.length hnil) (by simp)
  · rintro millis es e millis' ⟨rfl, hpolls⟩ step
    cases step with
    | tick =>
        refine ⟨?_, fun before expired remaining after hsplit => ?_⟩
        · rw [fwTimerSystickTick, elapsed_append, UInt32.add_assoc, UInt32.ofNat_add]
          rfl
        · rcases concat_eq_append_cons hsplit with ⟨_, hpoll, _⟩ | ⟨rest, _, hes⟩
          · cases hpoll
          · exact hpolls before expired remaining rest hes
    | poll =>
        refine ⟨?_, fun before expired remaining after hsplit => ?_⟩
        · rw [elapsed_append]
          rfl
        · rcases concat_eq_append_cons hsplit with ⟨hbefore, hpoll, _⟩ | ⟨rest, _, hes⟩
          · cases hpoll
            subst hbefore
            exact poll_answers _ start duration
          · exact hpolls before expired remaining rest hes

/-- As long as no poll has reported the expiry the counter has not gone round. -/
theorem elapsed_lt_of_unexpired {rest : List TimeoutEvent} (hpolls : PollsExactly duration es)
    (hgaps : GapsBelow TimeoutEvent.time TimeoutEvent.isPoll (2 ^ 32 - duration.toNat) es)
    (hduration : 0 < duration.toNat) (hsplit : es = before ++ rest)
    (hnone : ∀ remaining, .poll true remaining ∉ before) :
    elapsed TimeoutEvent.time before < 2 ^ 32 := by
  have hlt := duration.toNat_lt
  induction hlength : before.length using Nat.strongRecOn generalizing before rest with
  | ind n ih =>
      subst hlength hsplit
      refine elapsed_lt hduration (by omega) hgaps ?_ ?_
      · intro e he
        cases e with
        | tick => cases he
        | poll => rfl
      · -- an earlier poll has reported that the duration has not passed
        rintro earlier p later rfl hp
        have hsplit : earlier ++ p :: later ++ rest = earlier ++ (p :: later ++ rest) := by
          rw [List.append_assoc]
        have hearly := ih earlier.length (by simp) hsplit
          (fun remaining hmem => hnone remaining (List.mem_append_left _ hmem)) rfl
        cases p with
        | tick => cases hp
        | poll expired remaining =>
            have hexact := (hpolls earlier expired remaining (later ++ rest) (by simp)).1
            rw [Nat.mod_eq_of_lt hearly] at hexact
            by_contra hlate
            have hexpired := hexact.mpr (Nat.le_of_not_lt hlate)
            exact hnone remaining (by rw [hexpired]; simp)

/-- When at most `2^32 - duration` milliseconds pass without a poll, a poll before which none has
reported the expiry reports it exactly when the duration has passed, and the remaining time is
exact. -/
theorem fwTimeout_expires
    (run : Run (TimeoutStep (fwTimeoutStart start duration)) start es millis)
    (hgaps : GapsBelow TimeoutEvent.time TimeoutEvent.isPoll (2 ^ 32 - duration.toNat) es)
    {expired : Bool} {remaining : UInt32}
    (hsplit : es = before ++ .poll expired remaining :: after)
    (hnone : ∀ remaining', .poll true remaining' ∉ before) :
    (expired = true ↔ duration.toNat ≤ elapsed TimeoutEvent.time before) ∧
      remaining.toNat = duration.toNat - elapsed TimeoutEvent.time before := by
  have hpolls := (run_polls run).2
  obtain ⟨hexact, hremaining⟩ := hpolls before expired remaining after hsplit
  have hlt : 0 < duration.toNat → elapsed TimeoutEvent.time before < 2 ^ 32 := fun hpos =>
    elapsed_lt_of_unexpired hpolls hgaps hpos hsplit hnone
  rw [deadline_le_mod_iff hlt] at hexact
  refine ⟨hexact, ?_⟩
  rcases Nat.eq_zero_or_pos duration.toNat with hzero | hpos
  · rw [hremaining, hzero, Nat.zero_sub, Nat.zero_sub]
  · rw [hremaining, Nat.mod_eq_of_lt (hlt hpos)]

/-- A timeout of three milliseconds across the wrap of the counter. -/
theorem fwTimeout_expires_sample :
    ∃ es millis, Run (TimeoutStep (fwTimeoutStart 0xFFFFFFFE 3)) 0xFFFFFFFE es millis ∧
      es = [.tick, .tick, .poll false 1, .tick] ++ .poll true 0 :: [] ∧
      ((true = true ↔ (3 : UInt32).toNat ≤
          elapsed TimeoutEvent.time [.tick, .tick, .poll false 1, .tick]) ∧
        (0 : UInt32).toNat = (3 : UInt32).toNat -
          elapsed TimeoutEvent.time [.tick, .tick, .poll false 1, .tick]) := by
  have run := ((((Run.nil (0xFFFFFFFE : UInt32)).snoc
    (@TimeoutStep.tick (fwTimeoutStart 0xFFFFFFFE 3) 0xFFFFFFFE)).snoc (.tick _)).snoc
    (.poll _)).snoc (.tick _) |>.snoc (.poll _)
  have hgaps : GapsBelow TimeoutEvent.time TimeoutEvent.isPoll (2 ^ 32 - (3 : UInt32).toNat)
      [.tick, .tick, .poll false 1, .tick, .poll true 0] := by
    intro first mid last hsplit _
    have hsum := congrArg (elapsed TimeoutEvent.time) hsplit
    rw [elapsed_append, elapsed_append] at hsum
    have htotal : elapsed TimeoutEvent.time
        [.tick, .tick, .poll false 1, .tick, .poll true 0] = 3 := rfl
    have hlimit : 2 ^ 32 - (3 : UInt32).toNat = 4294967293 := rfl
    omega
  exact ⟨_, _, run, by decide, fwTimeout_expires run hgaps rfl (by simp)⟩

end Timeouts

section Delays

/-- `fw_delay_millis` of all builds; `reading k` is the counter at the `k`-th reading, and the
result is the reading that ends the loop. -/
def fwDelayMillis (reading : Nat → UInt32) (ms : UInt32) (fuel : Nat) : Option Nat :=
  waitLoop (fun k => decide (reading k - reading 0 < ms)) fuel 1

/-- `fw_delay_micros` of the host builds. -/
def fwDelayMicrosHost (reading : Nat → UInt64) (us : UInt32) (fuel : Nat) : Option Nat :=
  waitLoop (fun k => decide (reading k - reading 0 < us.toUInt64)) fuel 1

/-- `while (count--)`, with the number of its rounds. -/
def countDown : Nat → UInt32 → Option Nat
  | 0, _ => none
  | fuel + 1, count => if count = 0 then some 0 else (countDown fuel (count - 1)).map (· + 1)

/-- `fw_delay_micros` of the bare-metal build, with the number of rounds. -/
def fwDelayMicrosEmbedded (us : UInt32) (fuel : Nat) : Option Nat := countDown fuel (us * 8)

/-- The loop ends at the first reading behind a duration. -/
structure Waits (clock : Nat → Nat) (duration : Nat) (loop : Nat → Option Nat) : Prop where
  ends : ∃ k, 1 ≤ k ∧ (∀ fuel > k, loop fuel = some k) ∧ clock 0 + duration ≤ clock k ∧
    ∀ j, 1 ≤ j → j < k → clock j < clock 0 + duration

theorem countDown_eq (count : UInt32) {fuel : Nat} (hfuel : count.toNat < fuel) :
    countDown fuel count = some count.toNat := by
  induction fuel generalizing count with
  | zero => omega
  | succ fuel ih =>
      rw [countDown]
      by_cases hzero : count = 0
      · rw [if_pos hzero, hzero]
        rfl
      · have hpos : 0 < count.toNat := Nat.pos_of_ne_zero fun h =>
          hzero (UInt32.toNat_inj.mp h)
        have hpred : (count - 1).toNat = count.toNat - 1 :=
          UInt32.toNat_sub_of_le count 1 (UInt32.le_iff_toNat_le.mpr hpos)
        rw [if_neg hzero, ih (count - 1) (by omega), hpred, Option.map_some,
          Nat.sub_add_cancel hpos]

/-- A difference of two readings is the time between them, modulo the range of the counter. -/
theorem reading_sub (clock : Nat → Nat) (hmono : Monotone clock) (k : Nat) :
    (UInt32.ofNat (clock k) - UInt32.ofNat (clock 0)).toNat = (clock k - clock 0) % 2 ^ 32 ∧
      (UInt64.ofNat (clock k) - UInt64.ofNat (clock 0)).toNat = (clock k - clock 0) % 2 ^ 64 := by
  obtain ⟨n, hn⟩ := Nat.exists_eq_add_of_le (hmono (Nat.zero_le k))
  rw [hn, Nat.add_sub_cancel_left, UInt32.ofNat_add, UInt64.ofNat_add, UInt32.add_comm,
    UInt64.add_comm, UInt32.add_sub_cancel, UInt64.add_sub_cancel]
  exact ⟨UInt32.toNat_ofNat', UInt64.toNat_ofNat'⟩

/-- A loop that waits while a counter modulo `modulus` shows less than the duration. -/
theorem waits_of_counter {clock : Nat → Nat} {duration modulus : Nat} {waiting : Nat → Bool}
    (hmono : Monotone clock) (hduration : duration ≤ modulus)
    (hgap : ∀ k, clock (k + 1) ≤ clock k + (modulus - duration))
    (hpass : ∃ k, clock 0 + duration ≤ clock k)
    (hwaiting : ∀ j, waiting j = true ↔ (clock j - clock 0) % modulus < duration) :
    Waits clock duration (fun fuel => waitLoop waiting fuel 1) := by
  obtain ⟨k, hk, hdue, hearly, hiff⟩ := exists_first_due hmono hduration hgap hpass
  refine ⟨k, hk, fun fuel hfuel => waitLoop_eq hk (fun j hj hlt => ?_) ?_ (by omega), hdue,
    hearly⟩
  · rw [hwaiting, ← Nat.not_le, hiff j hj (Nat.le_of_lt hlt)]
    exact Nat.ne_of_lt hlt
  · rw [← Bool.not_eq_true, hwaiting, Nat.not_lt, hiff k hk (Nat.le_refl k)]

/-- A delay ends at the first reading behind its duration, also across the wrap of the counter,
when two readings are never too far apart. The loop of the bare-metal build for microseconds runs
eight times the microseconds, modulo `2^32`. -/
theorem fwDelay_waits {clock : Nat → Nat} (hmono : Monotone clock) (duration : UInt32)
    (hpass : ∃ k, clock 0 + duration.toNat ≤ clock k) :
    ((∀ k, clock (k + 1) ≤ clock k + (2 ^ 32 - duration.toNat)) →
      Waits clock duration.toNat (fwDelayMillis (fun k => UInt32.ofNat (clock k)) duration)) ∧
    ((∀ k, clock (k + 1) ≤ clock k + (2 ^ 64 - duration.toNat)) →
      Waits clock duration.toNat
        (fwDelayMicrosHost (fun k => UInt64.ofNat (clock k)) duration)) ∧
    ∀ fuel > 2 ^ 32, fwDelayMicrosEmbedded duration fuel = some (8 * duration.toNat % 2 ^ 32) := by
  have hlt := duration.toNat_lt
  refine ⟨fun hgap => ?_, fun hgap => ?_, fun fuel hfuel => ?_⟩
  · refine waits_of_counter hmono (Nat.le_of_lt hlt) hgap hpass fun j => ?_
    rw [decide_eq_true_iff, UInt32.lt_iff_toNat_lt, (reading_sub clock hmono j).1]
  · refine waits_of_counter hmono (by omega) hgap hpass fun j => ?_
    rw [decide_eq_true_iff, UInt64.lt_iff_toNat_lt, (reading_sub clock hmono j).2,
      UInt32.toNat_toUInt64]
  · have hcount : (duration * 8).toNat = 8 * duration.toNat % 2 ^ 32 := by
      rw [UInt32.toNat_mul, Nat.mul_comm]
      rfl
    have hbound := (duration * 8).toNat_lt
    rw [fwDelayMicrosEmbedded, countDown_eq _ (by omega), hcount]

/-- Three milliseconds on a counter that wraps around after the second reading. -/
theorem fwDelay_waits_sample :
    Waits (fun k => 2 ^ 32 - 2 + k) (3 : UInt32).toNat
      (fwDelayMillis (fun k => UInt32.ofNat (2 ^ 32 - 2 + k)) 3) ∧
    Waits (fun k => 2 ^ 32 - 2 + k) (3 : UInt32).toNat
      (fwDelayMicrosHost (fun k => UInt64.ofNat (2 ^ 32 - 2 + k)) 3) ∧
    ∀ fuel > 2 ^ 32, fwDelayMicrosEmbedded 3 fuel = some (8 * (3 : UInt32).toNat % 2 ^ 32) := by
  have hmono : Monotone (fun k => 2 ^ 32 - 2 + k) := fun a b hab => Nat.add_le_add_left hab _
  obtain ⟨hmillis, hhost, hembedded⟩ := fwDelay_waits hmono 3 ⟨3, Nat.le_refl _⟩
  have hthree : (3 : UInt32).toNat = 3 := rfl
  refine ⟨hmillis fun k => ?_, hhost fun k => ?_, hembedded⟩
  · rw [hthree]
    omega
  · rw [hthree]
    omega

end Delays

end ZeroEmbedded.Timer
