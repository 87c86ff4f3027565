import Mathlib

/-!
# Polls of a clock that wraps around

Time passes by events, and some events poll a clock that counts modulo a
number. When never too much time passes without a poll, the first poll behind a
deadline sees the clock before it has gone round.
-/

namespace ZeroEmbedded.Foundation.Polling

variable {ε : Type*} (time : ε → Nat) (polls : ε → Bool)

/-- The time that passes by some events. -/
def elapsed (es : List ε) : Nat := (es.map time).sum

/-- At most `gap` passes in any stretch without a poll. -/
def GapsBelow (gap : Nat) (es : List ε) : Prop :=
  ∀ before mid after, es = before ++ mid ++ after → (∀ e ∈ mid, polls e = false) →
    elapsed time mid ≤ gap

variable {time polls}

theorem elapsed_append (es fs : List ε) :
    elapsed time (es ++ fs) = elapsed time es + elapsed time fs := by
  rw [elapsed, List.map_append, List.sum_append]
  rfl

/-- Events without a poll, or a last poll and events without one behind it. -/
theorem exists_last_poll (es : List ε) :
    (∀ e ∈ es, polls e = false) ∨
      ∃ before p after, es = before ++ p :: after ∧ polls p = true ∧
        ∀ e ∈ after, polls e = false := by
  induction es using List.reverseRecOn with
  | nil => exact Or.inl fun e he => absurd he List.not_mem_nil
  | append_singleton es e ih =>
      cases hpoll : polls e with
      | true =>
          exact Or.inr ⟨es, e, [], rfl, hpoll, fun e he => absurd he List.not_mem_nil⟩
      | false =>
          rcases ih with hnone | ⟨before, p, after, rfl, hp, hafter⟩
          · refine Or.inl fun x hx => ?_
            rcases List.mem_append.mp hx with hx | hx
            · exact hnone x hx
            · rwa [List.mem_singleton.mp hx]
          · refine Or.inr ⟨before, p, after ++ [e], by simp, hp, fun x hx => ?_⟩
            rcases List.mem_append.mp hx with hx | hx
            · exact hafter x hx
            · rwa [List.mem_singleton.mp hx]

/-- When every poll so far was before the deadline, the clock has not gone round. -/
theorem elapsed_lt {es rest : List ε} {deadline gap modulus : Nat} (hdeadline : 0 < deadline)
    (hmodulus : deadline + gap ≤ modulus) (hgaps : GapsBelow time polls gap (es ++ rest))
    (htime : ∀ e, polls e = true → time e = 0)
    (hbefore : ∀ before p after, es = before ++ p :: after → polls p = true →
      elapsed time before < deadline) : elapsed time es < modulus := by
  rcases @exists_last_poll ε polls es with hnone | ⟨before, p, after, rfl, hp, hafter⟩
  · have hgap := hgaps [] es rest rfl hnone
    omega
  · have hgap := hgaps (before ++ [p]) after rest (by simp) hafter
    have hearly := hbefore before p after rfl hp
    have hzero := htime p hp
    rw [elapsed_append, elapsed, elapsed, List.map_cons, List.sum_cons, hzero, Nat.zero_add,
      ← elapsed, ← elapsed]
    omega

/-- The remainder of an elapsed time that has not gone round, or the whole of a zero deadline. -/
theorem deadline_le_mod_iff {deadline n modulus : Nat} (h : 0 < deadline → n < modulus) :
    deadline ≤ n % modulus ↔ deadline ≤ n := by
  rcases Nat.eq_zero_or_pos deadline with rfl | hpos
  · exact iff_of_true (Nat.zero_le _) (Nat.zero_le _)
  · rw [Nat.mod_eq_of_lt (h hpos)]

section Wait

/-- A loop that looks again as long as it has to wait, with the number of the last look. -/
def waitLoop (waiting : Nat → Bool) : Nat → Nat → Option Nat
  | 0, _ => none
  | fuel + 1, k => if waiting k then waitLoop waiting fuel (k + 1) else some k

/-- The loop ends at the first look that need not wait. -/
theorem waitLoop_eq {waiting : Nat → Bool} {first last fuel : Nat} (hle : first ≤ last)
    (hwaiting : ∀ k, first ≤ k → k < last → waiting k = true) (hlast : waiting last = false)
    (hfuel : last - first < fuel) : waitLoop waiting fuel first = some last := by
  induction fuel generalizing first with
  | zero => omega
  | succ fuel ih =>
      rw [waitLoop]
      by_cases heq : first = last
      · rw [heq, hlast]
        rfl
      · rw [hwaiting first (Nat.le_refl _) (by omega), if_pos rfl]
        exact ih (by omega) (fun k hk => hwaiting k (by omega)) (by omega)

/-- The first look at or behind a deadline sees a clock that has not gone round. -/
theorem exists_first_due {clock : Nat → Nat} {duration modulus : Nat} (hmono : Monotone clock)
    (hduration : duration ≤ modulus)
    (hgap : ∀ k, clock (k + 1) ≤ clock k + (modulus - duration))
    (hpass : ∃ k, clock 0 + duration ≤ clock k) :
    ∃ k, 1 ≤ k ∧ clock 0 + duration ≤ clock k ∧
      (∀ j, 1 ≤ j → j < k → clock j < clock 0 + duration) ∧
      ∀ j, 1 ≤ j → j ≤ k → (duration ≤ (clock j - clock 0) % modulus ↔ j = k) := by
  classical
  have hlater : ∃ k, clock 0 + duration ≤ clock (k + 1) := by
    obtain ⟨k, hk⟩ := hpass
    exact ⟨k, Nat.le_trans hk (hmono (Nat.le_succ k))⟩
  have hfound := Nat.find_spec hlater
  have hfirst : ∀ j, 1 ≤ j → j < Nat.find hlater + 1 → clock j < clock 0 + duration := by
    intro j hj hlt
    obtain ⟨i, rfl⟩ := Nat.exists_eq_add_of_le' hj
    exact Nat.lt_of_not_le (Nat.find_min hlater (by omega))
  refine ⟨Nat.find hlater + 1, Nat.le_add_left 1 _, hfound, hfirst, fun j hj hle => ?_⟩
  have hstart : clock 0 ≤ clock j := hmono (Nat.zero_le j)
  constructor
  · intro hdue
    by_contra hne
    have hearly := hfirst j hj (by omega)
    have hmod := Nat.mod_le (clock j - clock 0) modulus
    omega
  · rintro rfl
    -- the look before was early, so that not more than the modulus has passed
    have hgap := hgap (Nat.find hlater)
    have hbefore : clock (Nat.find hlater) ≤ clock 0 + duration - 1 ∨ duration = 0 ∨
        Nat.find hlater = 0 := by
      rcases Nat.eq_zero_or_pos (Nat.find hlater) with hzero | hpos
      · exact Or.inr (Or.inr hzero)
      · have hearly := hfirst (Nat.find hlater) hpos (by omega)
        exact Or.inl (by omega)
    rw [deadline_le_mod_iff (fun hpos => ?_)]
    · omega
    · rcases hbefore with hearly | hzero | hzero
      · omega
      · omega
      · rw [hzero] at hgap ⊢
        omega

end Wait

end ZeroEmbedded.Foundation.Polling
