import ZeroEmbedded.Types

/-!
# The microsecond timer

The three builds of `timer.c`. The host builds remember the first reading of
their clock and convert the difference to microseconds. The bare-metal build
counts the milliseconds of the SysTick interrupt.

## Implementation notes

The successive readings of a host clock are given by a function. The first call
of `fw_timer_get_micros` takes two of them. A signed difference that does not
fit its type wraps.
-/

namespace ZeroEmbedded.Timer

/-- The results of `n` successive calls. -/
def calls {σ : Type} (getMicros : σ → UInt64 × σ) : Nat → σ → List UInt64
  | 0, _ => []
  | n + 1, timer => (getMicros timer).1 :: calls getMicros n (getMicros timer).2

/-- The results are these uptimes, and they never decrease. -/
def TellsUptime (results : List UInt64) (uptimes : List Nat) : Prop :=
  results.map UInt64.toNat = uptimes ∧ results.Pairwise (· ≤ ·)

section Host

variable {R : Type}

/-- The reading that `init_host_timer` has stored, and the number of readings so far. -/
structure HostTimer (R : Type) where
  start : Option R
  reads : Nat

/-- Before the first call. -/
def HostTimer.unset : HostTimer R := ⟨none, 0⟩

/-- `init_host_timer`, with the reading that is stored afterwards. -/
def initHostTimer (clock : Nat → R) (timer : HostTimer R) : R × HostTimer R :=
  match timer.start with
  | none => (clock timer.reads, ⟨some (clock timer.reads), timer.reads + 1⟩)
  | some start => (start, timer)

/-- `fw_timer_get_micros` of a host build that converts two readings like this. -/
def hostMicros (convert : R → R → UInt64) (clock : Nat → R) (timer : HostTimer R) :
    UInt64 × HostTimer R :=
  let init := initHostTimer clock timer
  let now := clock init.2.reads
  (convert init.1 now, { init.2 with reads := init.2.reads + 1 })

theorem calls_hostMicros_of_start (convert : R → R → UInt64) (clock : Nat → R) (start : R)
    (n reads : Nat) :
    calls (hostMicros convert clock) n ⟨some start, reads⟩ =
      (List.range n).map fun k => convert start (clock (reads + k)) := by
  induction n generalizing reads with
  | zero => rfl
  | succ n ih =>
      rw [List.range_succ_eq_map, List.map_cons, List.map_map]
      have hrest := ih (reads + 1)
      have hshift : ∀ k, reads + 1 + k = reads + (k + 1) := fun k => by omega
      simp only [hshift] at hrest
      exact congrArg (List.cons _) hrest

/-- The `k`-th call converts the first reading and the `k`-th one behind it. -/
theorem calls_hostMicros (convert : R → R → UInt64) (clock : Nat → R) (n : Nat) :
    calls (hostMicros convert clock) n HostTimer.unset =
      (List.range n).map fun k => convert (clock 0) (clock (k + 1)) := by
  cases n with
  | zero => rfl
  | succ n =>
      rw [List.range_succ_eq_map, List.map_cons, List.map_map]
      have hrest := calls_hostMicros_of_start convert clock (clock 0) n 2
      have hshift : ∀ k, 2 + k = k + 1 + 1 := fun k => by omega
      simp only [hshift] at hrest
      exact congrArg (List.cons _) hrest

/-- The unsigned difference of two signed values in order. -/
theorem toNat_toUInt64_sub {a b : Int64} (hle : b.toInt ≤ a.toInt) :
    (a - b).toUInt64.toNat = (a.toInt - b.toInt).toNat := by
  rw [Int64.toUInt64_sub]
  change (a.toBitVec - b.toBitVec).toNat = (a.toBitVec.toInt - b.toBitVec.toInt).toNat
  change b.toBitVec.toInt ≤ a.toBitVec.toInt at hle
  rw [BitVec.toNat_sub, BitVec.toInt_eq_toNat_cond, BitVec.toInt_eq_toNat_cond] at *
  have hx := a.toBitVec.isLt
  have hy := b.toBitVec.isLt
  split at hle <;> split at hle <;> omega

end Host

section Windows

/-- The conversion of `fw_timer_get_micros` on Windows, from two values of the performance
counter. -/
def counterMicros (freq start now : Int64) : UInt64 :=
  let elapsed := (now - start).toUInt64
  elapsed * 1000000 / freq.toUInt64

/-- `fw_timer_get_micros` on Windows. -/
def fwTimerGetMicrosWin32 (freq : Int64) (clock : Nat → Int64) :
    HostTimer Int64 → UInt64 × HostTimer Int64 :=
  hostMicros (counterMicros freq) clock

/-- The counts between the first reading and that of the `k`-th call. -/
def elapsedCounts (clock : Nat → Int64) (k : Nat) : Nat :=
  ((clock (k + 1)).toInt - (clock 0).toInt).toNat

/-- The elapsed microseconds at the calls. -/
def counterUptimes (freq : Int64) (clock : Nat → Int64) (n : Nat) : List Nat :=
  (List.range n).map fun k => elapsedCounts clock k * 1000000 / freq.toInt.toNat

variable {freq : Int64} {clock : Nat → Int64}

/-- A product that wraps gives another quotient. -/
theorem mod_div_eq_iff {x d m : Nat} (hd : 0 < d) (hm : d ≤ m) :
    x % m / d = x / d ↔ x < m := by
  constructor
  · intro heq
    by_contra hge
    have hle : x % m + d ≤ x := by
      have hsub := Nat.mod_eq_sub_mod (Nat.not_lt.mp hge)
      have hrest := Nat.mod_le (x - m) m
      omega
    have hdiv : x % m / d + 1 ≤ x / d := by
      rw [← Nat.add_div_right _ hd]
      exact Nat.div_le_div_right hle
    omega
  · intro hlt
    rw [Nat.mod_eq_of_lt hlt]

theorem toNat_counterMicros (hfreq : 0 < freq) (hmono : Monotone fun k => (clock k).toInt)
    (k : Nat) :
    (counterMicros freq (clock 0) (clock (k + 1))).toNat =
      elapsedCounts clock k * 1000000 % 2 ^ 64 / freq.toInt.toNat := by
  have hfreq' : freq.toUInt64.toNat = freq.toInt.toNat :=
    Int64.toNat_toUInt64_of_le (Int64.le_of_lt hfreq)
  have hdiff : (clock (k + 1) - clock 0).toUInt64.toNat = elapsedCounts clock k :=
    toNat_toUInt64_sub (hmono (Nat.zero_le (k + 1)))
  rw [counterMicros, UInt64.toNat_div, UInt64.toNat_mul, hfreq', hdiff]
  rfl

theorem counterUptimes_pairwise (hmono : Monotone fun k => (clock k).toInt) (n : Nat) :
    (counterUptimes freq clock n).Pairwise (· ≤ ·) := by
  rw [counterUptimes, List.pairwise_map]
  refine List.pairwise_lt_range.imp fun {j k} hlt => Nat.div_le_div_right ?_
  have hle : (clock (j + 1)).toInt ≤ (clock (k + 1)).toInt :=
    hmono (Nat.succ_le_succ (Nat.le_of_lt hlt))
  refine Nat.mul_le_mul_right _ (Int.toNat_le_toNat ?_)
  omega

/-- The Windows build tells the uptime exactly when no product of a difference and a million
wraps. -/
theorem fwTimerGetMicrosWin32_tells_iff (hfreq : 0 < freq)
    (hmono : Monotone fun k => (clock k).toInt) (n : Nat) :
    TellsUptime (calls (fwTimerGetMicrosWin32 freq clock) n HostTimer.unset)
        (counterUptimes freq clock n) ↔
      ∀ k < n, elapsedCounts clock k * 1000000 < 2 ^ 64 := by
  have hpos : 0 < freq.toInt.toNat := by
    have hlt := Int64.lt_iff_toInt_lt.mp hfreq
    have hzero : (0 : Int64).toInt = 0 := rfl
    omega
  have hle : freq.toInt.toNat ≤ 2 ^ 64 := by
    have hlt := freq.toInt_lt
    omega
  have heq : (calls (fwTimerGetMicrosWin32 freq clock) n HostTimer.unset).map UInt64.toNat =
      counterUptimes freq clock n ↔ ∀ k < n, elapsedCounts clock k * 1000000 < 2 ^ 64 := by
    rw [fwTimerGetMicrosWin32, calls_hostMicros, List.map_map, counterUptimes, List.map_inj_left]
    refine forall_congr' fun k => ?_
    rw [List.mem_range, ← mod_div_eq_iff hpos hle, ← toNat_counterMicros hfreq hmono]
    rfl
  rw [TellsUptime, heq, and_iff_left_iff_imp]
  intro hall
  have hsorted : (counterUptimes freq clock n).Pairwise (· ≤ ·) := counterUptimes_pairwise hmono n
  rw [← heq.mpr hall, List.pairwise_map] at hsorted
  exact hsorted.imp UInt64.le_iff_toNat_le.mpr

end Windows

section BareMetal

/-- `fw_timer_systick_tick` on `s_embedded_millis`. -/
def fwTimerSystickTick (millis : UInt32) : UInt32 := millis + 1

/-- `fw_timer_get_micros` without a host. -/
def fwTimerGetMicrosEmbedded (millis : UInt32) : UInt64 := millis.toUInt64 * 1000

/-- What happens on bare metal. -/
inductive TimerOp
  | systickTick
  | getMicros
  deriving DecidableEq

/-- The results of the calls of `fw_timer_get_micros`. -/
def embeddedCalls : List TimerOp → UInt32 → List UInt64
  | [], _ => []
  | .systickTick :: ops, millis => embeddedCalls ops (fwTimerSystickTick millis)
  | .getMicros :: ops, millis => fwTimerGetMicrosEmbedded millis :: embeddedCalls ops millis

/-- The ticks before each call of `fw_timer_get_micros`, when there were `n` at the start. -/
def ticksAt : List TimerOp → Nat → List Nat
  | [], _ => []
  | .systickTick :: ops, n => ticksAt ops (n + 1)
  | .getMicros :: ops, n => n :: ticksAt ops n

variable {ops : List TimerOp} {millis : UInt32} {n : Nat}

theorem toNat_fwTimerGetMicrosEmbedded (n : Nat) :
    (fwTimerGetMicrosEmbedded (UInt32.ofNat n)).toNat = n % 2 ^ 32 * 1000 := by
  have hlt := Nat.mod_lt n (Nat.two_pow_pos 32)
  rw [fwTimerGetMicrosEmbedded, UInt64.toNat_mul, UInt32.toNat_toUInt64, UInt32.toNat_ofNat']
  exact Nat.mod_eq_of_lt (by change n % 2 ^ 32 * 1000 < 2 ^ 64; omega)

/-- Each call converts the ticks that the counter can tell. -/
theorem embeddedCalls_eq (ops : List TimerOp) (n : Nat) :
    (embeddedCalls ops (UInt32.ofNat n)).map UInt64.toNat =
      (ticksAt ops n).map fun ticks => ticks % 2 ^ 32 * 1000 := by
  induction ops generalizing n with
  | nil => rfl
  | cons op ops ih =>
      cases op with
      | systickTick =>
          have hnext : fwTimerSystickTick (UInt32.ofNat n) = UInt32.ofNat (n + 1) :=
            (UInt32.ofNat_add n 1).symm
          rw [embeddedCalls, hnext]
          exact ih (n + 1)
      | getMicros =>
          rw [embeddedCalls, ticksAt, List.map_cons, List.map_cons, ih,
            toNat_fwTimerGetMicrosEmbedded]

/-- The ticks are counted upwards. -/
theorem ticksAt_pairwise (ops : List TimerOp) (n : Nat) :
    (ticksAt ops n).Pairwise (· ≤ ·) ∧ ∀ ticks ∈ ticksAt ops n, n ≤ ticks := by
  induction ops generalizing n with
  | nil => exact ⟨List.Pairwise.nil, fun _ h => absurd h List.not_mem_nil⟩
  | cons op ops ih =>
      cases op with
      | systickTick =>
          obtain ⟨hsorted, hlow⟩ := ih (n + 1)
          exact ⟨hsorted, fun ticks h => Nat.le_of_succ_le (hlow ticks h)⟩
      | getMicros =>
          obtain ⟨hsorted, hlow⟩ := ih n
          refine ⟨List.pairwise_cons.mpr ⟨hlow, hsorted⟩, fun ticks h => ?_⟩
          rcases List.mem_cons.mp h with rfl | h
          · exact Nat.le_refl _
          · exact hlow ticks h

/-- The bare-metal build tells the uptime exactly as long as the millisecond counter has not
wrapped. -/
theorem fwTimerGetMicrosEmbedded_tells_iff (ops : List TimerOp) :
    TellsUptime (embeddedCalls ops 0) ((ticksAt ops 0).map (· * 1000)) ↔
      ∀ ticks ∈ ticksAt ops 0, ticks < 2 ^ 32 := by
  have heq : (embeddedCalls ops 0).map UInt64.toNat = (ticksAt ops 0).map (· * 1000) ↔
      ∀ ticks ∈ ticksAt ops 0, ticks < 2 ^ 32 := by
    have hcalls : (embeddedCalls ops 0).map UInt64.toNat = _ := embeddedCalls_eq ops 0
    rw [hcalls, List.map_inj_left]
    refine forall₂_congr fun ticks _ => ?_
    constructor
    · intro hsame
      have hlt := Nat.mod_lt ticks (Nat.two_pow_pos 32)
      omega
    · intro hlt
      rw [Nat.mod_eq_of_lt hlt]
  rw [TellsUptime, heq, and_iff_left_iff_imp]
  intro hall
  have hsorted : ((ticksAt ops 0).map (· * 1000)).Pairwise (· ≤ ·) :=
    List.pairwise_map.mpr ((ticksAt_pairwise ops 0).1.imp fun hle => Nat.mul_le_mul_right _ hle)
  rw [← heq.mpr hall, List.pairwise_map] at hsorted
  exact hsorted.imp UInt64.le_iff_toNat_le.mpr

end BareMetal

section Posix

/-- `struct timespec`. -/
structure Timespec where
  tvSec : Int64
  tvNsec : Int64
  deriving DecidableEq

/-- The nanoseconds are less than a second. -/
def Timespec.Normalised (t : Timespec) : Prop := 0 ≤ t.tvNsec.toInt ∧ t.tvNsec.toInt < 10 ^ 9

/-- The reading in nanoseconds. -/
def Timespec.nanos (t : Timespec) : Int := t.tvSec.toInt * 10 ^ 9 + t.tvNsec.toInt

/-- The conversion of `fw_timer_get_micros` on POSIX, from two values of the clock. -/
def timespecMicros (start now : Timespec) : UInt64 :=
  let sec := (now.tvSec - start.tvSec).toUInt64
  let nsec := now.tvNsec - start.tvNsec
  sec * 1000000 + (nsec / 1000).toUInt64

/-- `fw_timer_get_micros` on POSIX. -/
def fwTimerGetMicrosPosix (clock : Nat → Timespec) :
    HostTimer Timespec → UInt64 × HostTimer Timespec :=
  hostMicros timespecMicros clock

variable {start now later : Timespec}

/-- The microseconds between two readings: the difference of the nanoseconds is rounded towards
zero. -/
def microsBetween (start now : Timespec) : Int :=
  (now.tvSec.toInt - start.tvSec.toInt) * 1000000 +
    (now.tvNsec.toInt - start.tvNsec.toInt).tdiv 1000

/-- Rounding towards zero to a multiple of 1000. -/
theorem tdiv_thousand (n : Int) : n.tdiv 1000 = if 0 ≤ n then n / 1000 else -(-n / 1000) := by
  split
  · next hn => exact Int.tdiv_eq_ediv_of_nonneg hn
  · next hn =>
      rw [← Int.tdiv_eq_ediv_of_nonneg (by omega), Int.neg_tdiv, Int.neg_neg]

/-- The rounded difference is less than a microsecond off. -/
theorem microsBetween_near (start now : Timespec) :
    now.nanos - start.nanos - 1000 < 1000 * microsBetween start now ∧
      1000 * microsBetween start now < now.nanos - start.nanos + 1000 := by
  rw [microsBetween, tdiv_thousand, Timespec.nanos, Timespec.nanos]
  split <;> omega

/-- No rounding inside of a second steps over its end. -/
theorem microsBetween_mono (hstart : start.Normalised) (hnow : now.Normalised)
    (hlater : later.Normalised) (hle : now.nanos ≤ later.nanos) :
    microsBetween start now ≤ microsBetween start later := by
  obtain ⟨hs, hs'⟩ := hstart
  obtain ⟨hn, hn'⟩ := hnow
  obtain ⟨hl, hl'⟩ := hlater
  rw [Timespec.nanos, Timespec.nanos] at hle
  have hsec : now.tvSec.toInt ≤ later.tvSec.toInt := by omega
  rw [microsBetween, microsBetween, tdiv_thousand, tdiv_thousand]
  rcases Int.lt_or_le now.tvSec.toInt later.tvSec.toInt with hlt | hge
  · split <;> split <;> omega
  · have hnsec : now.tvNsec.toInt ≤ later.tvNsec.toInt := by omega
    split <;> split <;> omega

/-- The sum in `uint64_t` is the difference, for readings in order that are not too far apart. -/
theorem toNat_timespecMicros (hstart : start.Normalised) (hnow : now.Normalised)
    (hle : start.nanos ≤ now.nanos) (hlt : now.nanos - start.nanos < 2 ^ 63 * 1000) :
    ((timespecMicros start now).toNat : Int) = microsBetween start now := by
  obtain ⟨hs, hs'⟩ := hstart
  obtain ⟨hn, hn'⟩ := hnow
  rw [Timespec.nanos, Timespec.nanos] at hle hlt
  have hsec : (now.tvSec - start.tvSec).toUInt64.toNat =
      (now.tvSec.toInt - start.tvSec.toInt).toNat := toNat_toUInt64_sub (by omega)
  have hnsec : (now.tvNsec - start.tvNsec).toInt = now.tvNsec.toInt - start.tvNsec.toInt := by
    rw [Int64.toInt_sub]
    exact Int.bmod_eq_of_le (by omega) (by omega)
  have hdiv : ((now.tvNsec - start.tvNsec) / 1000).toInt =
      (now.tvNsec.toInt - start.tvNsec.toInt).tdiv 1000 := by
    have hthousand : (1000 : Int64).toInt = 1000 := rfl
    rw [Int64.toInt_div, hnsec, hthousand, tdiv_thousand]
    refine Int.bmod_eq_of_le ?_ ?_ <;> split <;> omega
  have hwrap : (((now.tvNsec - start.tvNsec) / 1000).toUInt64.toNat : Int) =
      (now.tvNsec.toInt - start.tvNsec.toInt).tdiv 1000 % 2 ^ 64 := by
    rw [← hdiv]
    generalize (now.tvNsec - start.tvNsec) / 1000 = x
    change (x.toBitVec.toNat : Int) = x.toBitVec.toInt % 2 ^ 64
    have hx := x.toBitVec.isLt
    rw [BitVec.toInt_eq_toNat_cond]
    split <;> omega
  have hnear := microsBetween_near start now
  rw [Timespec.nanos, Timespec.nanos] at hnear
  rw [timespecMicros, UInt64.toNat_add, UInt64.toNat_mul, hsec]
  have hmillion : UInt64.toNat 1000000 = 1000000 := rfl
  rw [hmillion, microsBetween] at *
  rw [tdiv_thousand] at *
  split at hwrap <;> omega

/-- On POSIX every call is less than a microsecond off, and no call goes back. -/
theorem fwTimerGetMicrosPosix_tracks (clock : Nat → Timespec)
    (hnormal : ∀ k, (clock k).Normalised) (hmono : Monotone fun k => (clock k).nanos) (n : Nat)
    (hspan : ∀ k < n, (clock (k + 1)).nanos - (clock 0).nanos < 2 ^ 63 * 1000) :
    (∀ k < n, ∃ micros, (calls (fwTimerGetMicrosPosix clock) n HostTimer.unset)[k]? = some micros ∧
        (1000 * (micros.toNat : Int) -
          ((clock (k + 1)).nanos - (clock 0).nanos)).natAbs < 1000) ∧
      (calls (fwTimerGetMicrosPosix clock) n HostTimer.unset).Pairwise (· ≤ ·) := by
  have hmicros : ∀ k < n, ((timespecMicros (clock 0) (clock (k + 1))).toNat : Int) =
      microsBetween (clock 0) (clock (k + 1)) := fun k hk =>
    toNat_timespecMicros (hnormal 0) (hnormal _) (hmono (Nat.zero_le _)) (hspan k hk)
  rw [fwTimerGetMicrosPosix, calls_hostMicros]
  constructor
  · intro k hk
    refine ⟨timespecMicros (clock 0) (clock (k + 1)), ?_, ?_⟩
    · rw [List.getElem?_map, List.getElem?_range hk, Option.map_some]
    · obtain ⟨hlow, hhigh⟩ := microsBetween_near (clock 0) (clock (k + 1))
      rw [hmicros k hk]
      omega
  · rw [List.pairwise_map]
    refine List.pairwise_lt_range.imp_of_mem fun {j k} hj hk hlt => ?_
    have hle := microsBetween_mono (hnormal 0) (hnormal (j + 1)) (hnormal (k + 1))
      (hmono (Nat.succ_le_succ (Nat.le_of_lt hlt)))
    rw [← hmicros j (List.mem_range.mp hj), ← hmicros k (List.mem_range.mp hk)] at hle
    exact UInt64.le_iff_toNat_le.mpr (Int.ofNat_le.mp hle)

/-- A reading across the end of the second in which the timer has started. -/
def samplePosixClock (k : Nat) : Timespec := if k = 0 then ⟨5, 999999500⟩ else ⟨6, 100⟩

theorem fwTimerGetMicrosPosix_tracks_sample :
    (calls (fwTimerGetMicrosPosix samplePosixClock) 2 HostTimer.unset).Pairwise (· ≤ ·) := by
  refine (fwTimerGetMicrosPosix_tracks samplePosixClock (fun k => ?_) (fun j k hle => ?_) 2
    (by decide)).2
  · match k with
    | 0 => exact ⟨by decide, by decide⟩
    | k + 1 => exact (⟨by decide, by decide⟩ : Timespec.Normalised ⟨6, 100⟩)
  · match j, k with
    | 0, 0 => exact Int.le_refl _
    | 0, k + 1 => exact (by decide : Timespec.nanos ⟨5, 999999500⟩ ≤ Timespec.nanos ⟨6, 100⟩)
    | j + 1, 0 => omega
    | j + 1, k + 1 => exact Int.le_refl _

end Posix

/-- The Windows build tells the uptime exactly as long as no product with a million wraps, the
bare-metal build exactly as long as the millisecond counter does not. -/
theorem fwTimerGetMicros_tells_iff (freq : Int64) (clock : Nat → Int64) (n : Nat)
    (ops : List TimerOp) (hfreq : 0 < freq) (hmono : Monotone fun k => (clock k).toInt) :
    (TellsUptime (calls (fwTimerGetMicrosWin32 freq clock) n HostTimer.unset)
        (counterUptimes freq clock n) ↔
      ∀ k < n, elapsedCounts clock k * 1000000 < 2 ^ 64) ∧
    (TellsUptime (embeddedCalls ops 0) ((ticksAt ops 0).map (· * 1000)) ↔
      ∀ ticks ∈ ticksAt ops 0, ticks < 2 ^ 32) :=
  ⟨fwTimerGetMicrosWin32_tells_iff hfreq hmono n, fwTimerGetMicrosEmbedded_tells_iff ops⟩

/-- A counter of 10 MHz that is read once more after 21 days and a half. -/
def lateCounter (k : Nat) : Int64 := if k = 0 then 0 else 18446744073710

theorem lateCounter_monotone : Monotone fun k => (lateCounter k).toInt := by
  intro j k hle
  match j, k with
  | 0, 0 => exact Int.le_refl _
  | 0, k + 1 =>
      change (0 : Int64).toInt ≤ (18446744073710 : Int64).toInt
      decide
  | j + 1, 0 => omega
  | j + 1, k + 1 => exact Int.le_refl _

/-- A counter of 10 MHz that advances by 2.5 microseconds up to its fourth reading. -/
def earlyCounter : Nat → Int64
  | 0 => 100
  | 1 => 125
  | 2 => 150
  | _ => 175

theorem earlyCounter_monotone : Monotone fun k => (earlyCounter k).toInt := by
  refine monotone_nat_of_le_succ fun k => ?_
  match k with
  | 0 => decide
  | 1 => decide
  | 2 => decide
  | k + 3 => exact Int.le_refl _

/-- Three calls with the counter, and two on bare metal behind one and behind three ticks. -/
theorem fwTimerGetMicros_tells_sample :
    TellsUptime (calls (fwTimerGetMicrosWin32 10000000 earlyCounter) 3 HostTimer.unset) [2, 5, 7] ∧
      TellsUptime (embeddedCalls
        [.systickTick, .getMicros, .systickTick, .systickTick, .getMicros] 0) [1000, 3000] := by
  obtain ⟨hwindows, hembedded⟩ := fwTimerGetMicros_tells_iff 10000000 earlyCounter 3
    [.systickTick, .getMicros, .systickTick, .systickTick, .getMicros] (by decide)
    earlyCounter_monotone
  have huptimes : counterUptimes 10000000 earlyCounter 3 = [2, 5, 7] := by decide
  rw [huptimes] at hwindows
  exact ⟨hwindows.mpr (by decide), hembedded.mpr (by decide)⟩

/-- After 21 days and a half the product wraps, and the uptime starts at zero again. -/
theorem fwTimerGetMicros_runs_back :
    ¬ ((∀ (freq : Int64) (clock : Nat → Int64) (n : Nat), 0 < freq →
        (Monotone fun k => (clock k).toInt) →
        (∀ uptime ∈ counterUptimes freq clock n, uptime < 2 ^ 64) →
        TellsUptime (calls (fwTimerGetMicrosWin32 freq clock) n HostTimer.unset)
          (counterUptimes freq clock n)) ∧
      ∀ ops : List TimerOp, (∀ uptime ∈ (ticksAt ops 0).map (· * 1000), uptime < 2 ^ 64) →
        TellsUptime (embeddedCalls ops 0) ((ticksAt ops 0).map (· * 1000))) := by
  rintro ⟨hwindows, -⟩
  have huptime : counterUptimes 10000000 lateCounter 1 = [1844674407371] := by decide
  have hresult : calls (fwTimerGetMicrosWin32 10000000 lateCounter) 1 HostTimer.unset = [0] := by
    decide
  have htells := (hwindows 10000000 lateCounter 1 (by decide) lateCounter_monotone
    (by rw [huptime]; decide)).1
  rw [huptime, hresult] at htells
  exact absurd htells (by decide)

end ZeroEmbedded.Timer
